import Mathlib.Data.List.Forall2
import Resumable.Registry

/-!
# Instances of templates

A registry makes one class for each template and each list of type arguments,
however often it is asked and whatever is analyzed or declared in between. The
members of that class are those of the template with its parameters replaced.
-/

namespace Resumable

/-! ## Identity of types -/

namespace Ty

mutual

theorem same_iff_eq : ∀ a b : Ty, a.same b = true ↔ a = b
  | .absent, b => by cases b <;> simp [same]
  | .void, b => by cases b <;> simp [same]
  | .prim _, b => by cases b <;> simp [same]
  | .object _, b => by cases b <;> simp [same]
  | .param _, b => by cases b <;> simp [same]
  | .func r ps a, b => by
      cases b with
      | func r' ps' a' =>
          simp only [same, Bool.and_eq_true, decide_eq_true_eq, same_iff_eq r r',
            sameList_iff_eq ps ps', func.injEq]
          tauto
      | _ => simp [same]

theorem sameList_iff_eq : ∀ as bs : List Ty, sameList as bs = true ↔ as = bs
  | [], bs => by cases bs <;> simp [sameList]
  | a :: as, bs => by
      cases bs with
      | nil => simp [sameList]
      | cons b bs =>
          simp only [sameList, Bool.and_eq_true, same_iff_eq a b, sameList_iff_eq as bs,
            List.cons.injEq]

end

theorem same_equivalence : Equivalence fun a b : Ty => a.same b = true where
  refl a := (same_iff_eq a a).2 rfl
  symm h := (same_iff_eq _ _).2 ((same_iff_eq _ _).1 h).symm
  trans h h' := (same_iff_eq _ _).2 (((same_iff_eq _ _).1 h).trans ((same_iff_eq _ _).1 h'))

/-! ## Replacing parameters -/

/-- The second type is the first with every parameter of a template replaced by
the argument in its place. Arguments are put in as they are. -/
inductive Replaced (params : List String) (args : List Ty) : Ty → Ty → Prop where
  | argument {i : Nat} {name : String} {arg : Ty} : params[i]? = some name → args[i]? = some arg →
      Replaced params args (.param name) arg
  | other {name : String} : name ∉ params → Replaced params args (.param name) (.param name)
  | func {r r' : Ty} {ps ps' : List Ty} (assignable : Bool) : Replaced params args r r' →
      List.Forall₂ (Replaced params args) ps ps' →
      Replaced params args (.func r ps assignable) (.func r' ps' assignable)
  | absent : Replaced params args .absent .absent
  | void : Replaced params args .void .void
  | prim (name : String) : Replaced params args (.prim name) (.prim name)
  | object (cls : Option ClassId) : Replaced params args (.object cls) (.object cls)

section

variable {params : List String} {args : List Ty}

theorem replaced_param (hlength : args.length = params.length) (name : String) :
    Replaced params args (.param name)
      ((((params.zip args).reverse).lookup name).getD (.param name)) := by
  cases hlookup : ((params.zip args).reverse).lookup name with
  | none =>
      refine .other fun hmem => ?_
      obtain ⟨i, hi⟩ := List.getElem?_of_mem hmem
      have hlt : i < args.length := hlength ▸ (List.getElem?_eq_some_iff.1 hi).1
      have hpair : (name, args[i]) ∈ (params.zip args).reverse := by
        rw [List.mem_reverse]
        exact List.mem_of_getElem? (List.getElem?_zip_eq_some.2 ⟨hi, List.getElem?_eq_getElem hlt⟩)
      have hfree := List.lookup_eq_none_iff.1 hlookup _ hpair
      simp at hfree
  | some arg =>
      have hpair : (name, arg) ∈ params.zip args := by
        obtain ⟨before, after, heq, -⟩ := List.lookup_eq_some_iff.1 hlookup
        rw [← List.mem_reverse, heq]
        simp
      obtain ⟨i, hi⟩ := List.getElem?_of_mem hpair
      obtain ⟨hname, harg⟩ := List.getElem?_zip_eq_some.1 hi
      exact .argument hname harg

mutual

theorem replaced_substitute (hlength : args.length = params.length) :
    ∀ t : Ty, Replaced params args t (t.substitute (params.zip args).reverse)
  | .param name => by
      rw [substitute]
      exact replaced_param hlength name
  | .func r ps assignable => by
      rw [substitute]
      exact .func assignable (replaced_substitute hlength r) (replaced_substituteList hlength ps)
  | .absent => .absent
  | .void => .void
  | .prim name => .prim name
  | .object cls => .object cls

theorem replaced_substituteList (hlength : args.length = params.length) :
    ∀ ts : List Ty,
      List.Forall₂ (Replaced params args) ts (substituteList (params.zip args).reverse ts)
  | [] => .nil
  | t :: ts => .cons (replaced_substitute hlength t) (replaced_substituteList hlength ts)

end

mutual

/-- Where the parameters have different names, there is one way to replace them. -/
theorem Replaced.unique (hparams : params.Nodup) : ∀ {t a b : Ty},
    Replaced params args t a → Replaced params args t b → a = b
  | .param name, a, b, ha, hb => by
      cases ha with
      | argument hi ha =>
          cases hb with
          | argument hj hb =>
              obtain ⟨hlt, -⟩ := List.getElem?_eq_some_iff.1 hi
              obtain rfl := (List.getElem?_inj hlt hparams).1 (hi.trans hj.symm)
              exact Option.some.inj (ha.symm.trans hb)
          | other hname => exact absurd (List.mem_of_getElem? hi) hname
      | other hname =>
          cases hb with
          | argument hj _ => exact absurd (List.mem_of_getElem? hj) hname
          | other => rfl
  | .func r ps assignable, a, b, ha, hb => by
      cases ha with
      | func _ hr hps =>
          cases hb with
          | func _ hr' hps' => rw [Replaced.unique hparams hr hr', replaced_unique hparams hps hps']
  | .absent, a, b, ha, hb | .void, a, b, ha, hb | .prim _, a, b, ha, hb
  | .object _, a, b, ha, hb => by
      cases ha
      cases hb
      rfl

theorem replaced_unique (hparams : params.Nodup) : ∀ {ts as bs : List Ty},
    List.Forall₂ (Replaced params args) ts as → List.Forall₂ (Replaced params args) ts bs → as = bs
  | [], as, bs, has, hbs => by
      rw [List.forall₂_nil_left_iff.1 has, List.forall₂_nil_left_iff.1 hbs]
  | t :: ts, as, bs, has, hbs => by
      obtain ⟨a, rest, ha, hrest, rfl⟩ := List.forall₂_cons_left_iff.1 has
      obtain ⟨b, rest', hb, hrest', rfl⟩ := List.forall₂_cons_left_iff.1 hbs
      rw [Replaced.unique hparams ha hb, replaced_unique hparams hrest hrest']

end

end

end Ty

/-- The members of a class are those of a template, in order, with its parameters
replaced. -/
structure Class.Fills (cls : Class) (template : Template) (args : List Ty) : Prop where
  fields : List.Forall₂
    (fun f f' => f'.name = f.name ∧ Ty.Replaced template.params args f.type f'.type)
    template.fields cls.fields
  ctorParams : List.Forall₂ (Ty.Replaced template.params args) template.ctorParams cls.ctorParams

theorem Class.Fills.unique {template : Template} {args : List Ty} {cls cls' : Class}
    (hparams : template.params.Nodup) (h : cls.Fills template args) (h' : cls'.Fills template args) :
    cls.fields = cls'.fields ∧ cls.ctorParams = cls'.ctorParams := by
  refine ⟨?_, Ty.replaced_unique hparams h.ctorParams h'.ctorParams⟩
  have hfields := h.fields
  have hfields' := h'.fields
  generalize template.fields = fields at hfields hfields'
  generalize cls.fields = as at hfields ⊢
  generalize cls'.fields = bs at hfields' ⊢
  induction hfields generalizing bs with
  | nil => exact (List.forall₂_nil_left_iff.1 hfields').symm
  | @cons f a fields as hf _ ih =>
      obtain ⟨b, bs, hf', hrest, rfl⟩ := List.forall₂_cons_left_iff.1 hfields'
      obtain ⟨name, type⟩ := a
      obtain ⟨name', type'⟩ := b
      obtain rfl : name = name' := hf.1.trans hf'.1.symm
      obtain rfl : type = type' := hf.2.unique hparams hf'.2
      rw [ih bs hrest]

def Class.unmarked (cls : Class) : Class :=
  { cls with analyzed := false }

namespace TypeTable

def outline (table : TypeTable) (c : ClassId) : Option Class :=
  (table.class? c).map Class.unmarked

theorem lt_of_outline {table : TypeTable} {c : ClassId} {cls : Class}
    (h : table.outline c = some cls) : c < table.classes.size := by
  obtain ⟨found, hfound, -⟩ := Option.map_eq_some_iff.1 h
  exact (Array.getElem?_eq_some_iff.1 hfound).1

theorem outline_addClass_of_lt {table : TypeTable} {c : ClassId} (hc : c < table.classes.size)
    (cls : Class) : (table.addClass cls).2.outline c = table.outline c := by
  simp only [outline, class?, addClass]
  rw [Array.getElem?_push_lt hc, Array.getElem?_eq_getElem hc]

theorem outline_addClass_size (table : TypeTable) (cls : Class) :
    (table.addClass cls).2.outline table.classes.size = some cls.unmarked := by
  simp [outline, class?, addClass]

def templateAt (table : TypeTable) (t : TemplateId) : Template :=
  (table.template? t).getD { name := "" }

end TypeTable

namespace Registry

variable {r r' : Registry} {table table' : TypeTable} {t : TemplateId} {args : List Ty} {c : ClassId}

/-- An instance has the members of its template. -/
theorem fills_instantiated {template : Template} (hlength : args.length = template.params.length)
    {cls : Class} (hcls : cls.unmarked = instantiated t template args) :
    cls.Fills template args where
  fields := by
    have hfields : cls.fields = (instantiated t template args).fields := hcls ▸ rfl
    rw [hfields, instantiated, List.forall₂_map_right_iff, List.forall₂_same]
    exact fun f _ => ⟨rfl, Ty.replaced_substitute hlength f.type⟩
  ctorParams := by
    have hparams : cls.ctorParams = (instantiated t template args).ctorParams := hcls ▸ rfl
    rw [hparams, instantiated, List.forall₂_map_right_iff, List.forall₂_same]
    exact fun ty _ => Ty.replaced_substitute hlength ty

/-! ## What one request does -/

theorem mem_of_instance? (h : r.instance? table t args = some c) :
    (t, c) ∈ r.instances ∧ ∃ cls, table.class? c = some cls ∧ cls.typeArgs = args := by
  have hmem := List.mem_of_find?_eq_some h
  have hsame := List.find?_some h
  refine ⟨by simpa using hmem, ?_⟩
  cases hcls : table.class? c with
  | none => simp [hcls] at hsame
  | some cls => exact ⟨cls, rfl, (Ty.sameList_iff_eq _ _).1 (by simpa [hcls] using hsame)⟩

theorem typeArgs_ne_of_instance? (h : r.instance? table t args = none) {cls : Class}
    (hmem : (t, c) ∈ r.instances) (hcls : table.class? c = some cls) : cls.typeArgs ≠ args := by
  have hown : c ∈ (r.instances.filter fun entry => entry.1 = t).map (·.2) := by simpa using hmem
  have hfree := List.find?_eq_none.1 h c hown
  rw [hcls] at hfree
  exact fun heq => hfree ((Ty.sameList_iff_eq _ _).2 heq)

/-- A request for an instance fails for a wrong number of arguments only; it gives
a class that is there or adds one. -/
theorem instantiate_cases (r : Registry) (table : TypeTable) (t : TemplateId) (args : List Ty) :
    (args.length ≠ (table.templateAt t).params.length ∧
      ∃ f, r.instantiate table t args = .error f) ∨
    (args.length = (table.templateAt t).params.length ∧
      ((∃ c, r.instance? table t args = some c ∧ r.instantiate table t args = .ok (c, r, table)) ∨
        (r.instance? table t args = none ∧
          r.instantiate table t args = .ok (table.classes.size,
            { r with instances := r.instances ++ [(t, table.classes.size)] },
            (table.addClass (instantiated t (table.templateAt t) args)).2)))) := by
  unfold instantiate TypeTable.templateAt
  by_cases hlength : args.length = ((table.template? t).getD { name := "" }).params.length
  · refine .inr ⟨hlength, ?_⟩
    simp only [hlength, ne_eq, not_true_eq_false, if_false]
    cases r.instance? table t args with
    | none => exact .inr ⟨rfl, rfl⟩
    | some c => exact .inl ⟨c, rfl, rfl⟩
  · exact .inl ⟨hlength, _, by simp only [ne_eq, hlength, not_false_eq_true, if_true]; rfl⟩

/-- Analysis changes nothing but the mark of its class. -/
theorem analyze_cases (h : analyze table c = .ok table') : table' = table ∨
    ∃ cls, table.class? c = some cls ∧ table' = table.setClass c { cls with analyzed := true } := by
  unfold analyze at h
  split at h
  · exact .inl (Except.ok.inj h).symm
  · next cls hcls =>
      split at h
      · exact .inl (Except.ok.inj h).symm
      · split at h
        · cases h
        · split at h
          · cases h
          · exact .inr ⟨cls, hcls, (Except.ok.inj h).symm⟩

theorem outline_analyze (h : analyze table c = .ok table') (c' : ClassId) :
    table'.outline c' = table.outline c' := by
  obtain rfl | ⟨cls, hcls, rfl⟩ := analyze_cases h
  · rfl
  · simp only [TypeTable.outline, TypeTable.class?, TypeTable.setClass] at hcls ⊢
    rw [Array.getElem?_setIfInBounds]
    split
    · next heq =>
        subst heq
        rw [hcls]
        split <;> simp_all [Class.unmarked]
    · rfl

theorem templates_analyze (h : analyze table c = .ok table') :
    table'.templates = table.templates := by
  obtain rfl | ⟨cls, hcls, rfl⟩ := analyze_cases h <;> rfl

/-! ## Histories -/

/-- What is asked of a registry, or done to its table from elsewhere. -/
inductive Request where
  | instantiate (t : TemplateId) (args : List Ty)
  | analyze (c : ClassId)
  /-- A class joins the table that is no instance of the registry. -/
  | declare (cls : Class)

/-- A request for an instance that was met, and the class that it gave. -/
structure Grant where
  template : TemplateId
  args : List Ty
  cls : ClassId

/-- The instances given in a row of requests, and the registry and the table
after it. A request that fails changes nothing. -/
def history : List Request → Registry → TypeTable → List Grant × Registry × TypeTable
  | [], r, table => ([], r, table)
  | .instantiate t args :: rest, r, table =>
      match r.instantiate table t args with
      | .ok (c, r, table) =>
          let after := history rest r table
          (⟨t, args, c⟩ :: after.1, after.2)
      | .error _ => history rest r table
  | .analyze c :: rest, r, table =>
      match analyze table c with
      | .ok table => history rest r table
      | .error _ => history rest r table
  | .declare cls :: rest, r, table => history rest r (table.addClass cls).2

/-- A request for an instance with as many arguments as its template has
parameters. -/
def Request.fitting? (table : TypeTable) : Request → Option (TemplateId × List Ty)
  | .instantiate t args =>
      if args.length = (table.templateAt t).params.length then some (t, args) else none
  | _ => none

structure Holds (r : Registry) (table : TypeTable) (g : Grant) : Prop where
  listed : (g.template, g.cls) ∈ r.instances
  fits : g.args.length = (table.templateAt g.template).params.length
  outline : table.outline g.cls = some (instantiated g.template (table.templateAt g.template) g.args)

/-- Every instance has been made for some arguments, and no two instances of a
template for the same ones. -/
structure Canonical (r : Registry) (table : TypeTable) : Prop where
  made : ∀ {t : TemplateId} {c : ClassId}, (t, c) ∈ r.instances → ∃ args, Holds r table ⟨t, args, c⟩
  single : ∀ {t : TemplateId} {c c' : ClassId}, (t, c) ∈ r.instances → (t, c') ∈ r.instances →
    table.outline c = table.outline c' → c = c'

/-- A later registry and table: instances, templates and outlines of classes stay. -/
structure Later (r : Registry) (table : TypeTable) (r' : Registry) (table' : TypeTable) : Prop where
  instances : r.instances ⊆ r'.instances
  templates : table'.templates = table.templates
  outline : ∀ c < table.classes.size, table'.outline c = table.outline c

/-! ### What stays -/

theorem Later.refl (r : Registry) (table : TypeTable) : Later r table r table :=
  ⟨List.Subset.refl _, rfl, fun _ _ => rfl⟩

theorem Later.trans {r'' : Registry} {table'' : TypeTable} (h : Later r table r' table')
    (h' : Later r' table' r'' table'') : Later r table r'' table'' where
  instances := List.Subset.trans h.instances h'.instances
  templates := h'.templates.trans h.templates
  outline c hc := by
    obtain ⟨cls, hcls⟩ : ∃ cls, table.outline c = some cls :=
      ⟨_, by rw [TypeTable.outline, TypeTable.class?, Array.getElem?_eq_getElem hc]; rfl⟩
    have hkept := h.outline c hc
    rw [h'.outline c (TypeTable.lt_of_outline (hkept.trans hcls)), hkept]

theorem templateAt_congr (h : table'.templates = table.templates) (t : TemplateId) :
    table'.templateAt t = table.templateAt t := by
  rw [TypeTable.templateAt, TypeTable.template?, h]
  rfl

theorem Holds.later {g : Grant} (h : Holds r table g) (hlater : Later r table r' table') :
    Holds r' table' g where
  listed := hlater.instances h.listed
  fits := by rw [templateAt_congr hlater.templates, h.fits]
  outline := by
    rw [templateAt_congr hlater.templates, hlater.outline _ (TypeTable.lt_of_outline h.outline),
      h.outline]

theorem Canonical.lt (h : Canonical r table) (hmem : (t, c) ∈ r.instances) :
    c < table.classes.size := by
  obtain ⟨args, hargs⟩ := h.made hmem
  exact TypeTable.lt_of_outline hargs.outline

/-- A table that grows, or analyzed classes, leave instances as they are. -/
theorem Canonical.later (h : Canonical r table) (hlater : Later r table r table') :
    Canonical r table' where
  made hmem := by
    obtain ⟨args, hargs⟩ := h.made hmem
    exact ⟨args, hargs.later hlater⟩
  single hmem hmem' heq := by
    rw [hlater.outline _ (h.lt hmem), hlater.outline _ (h.lt hmem')] at heq
    exact h.single hmem hmem' heq

theorem later_addClass (r : Registry) (table : TypeTable) (cls : Class) :
    Later r table r (table.addClass cls).2 where
  instances := List.Subset.refl _
  templates := rfl
  outline _ hc := TypeTable.outline_addClass_of_lt hc cls

theorem later_analyze (r : Registry) (h : analyze table c = .ok table') :
    Later r table r table' where
  instances := List.Subset.refl _
  templates := templates_analyze h
  outline c' _ := outline_analyze h c'

/-! ### New instances -/

/-- Arguments that no instance of the template has are those of a new one. -/
theorem Canonical.add (h : Canonical r table)
    (hlength : args.length = (table.templateAt t).params.length)
    (hnone : r.instance? table t args = none) :
    let r' := { r with instances := r.instances ++ [(t, table.classes.size)] }
    let table' := (table.addClass (instantiated t (table.templateAt t) args)).2
    Later r table r' table' ∧ Holds r' table' ⟨t, args, table.classes.size⟩ ∧
      Canonical r' table' := by
  intro r' table'
  have hlater : Later r table r' table' :=
    ⟨List.subset_append_left _ _, rfl, fun c hc => TypeTable.outline_addClass_of_lt hc _⟩
  have hnew : Holds r' table' ⟨t, args, table.classes.size⟩ :=
    ⟨by simp [r'], hlength, TypeTable.outline_addClass_size table _⟩
  -- an old instance of the template has other arguments
  have hold {c : ClassId} (hmem : (t, c) ∈ r.instances) :
      table'.outline c ≠ table'.outline table.classes.size := by
    obtain ⟨args', hargs'⟩ := h.made hmem
    obtain ⟨cls, hcls, hunmarked⟩ := Option.map_eq_some_iff.1 hargs'.outline
    have htypeArgs : cls.typeArgs = args' := congrArg Class.typeArgs hunmarked
    have hne : args' ≠ args := htypeArgs ▸ typeArgs_ne_of_instance? hnone hmem hcls
    rw [hnew.outline, (hargs'.later hlater).outline]
    exact fun heq => hne (congrArg Class.typeArgs (Option.some.inj heq))
  refine ⟨hlater, hnew, ?_, ?_⟩
  · intro t' c hmem
    rcases List.mem_append.1 hmem with hmem | hmem
    · obtain ⟨args', hargs'⟩ := h.made hmem
      exact ⟨args', hargs'.later hlater⟩
    · obtain ⟨rfl, rfl⟩ : t' = t ∧ c = table.classes.size := by simpa using hmem
      exact ⟨args, hnew⟩
  · intro t' c c' hmem hmem' heq
    rcases List.mem_append.1 hmem with hc | hc <;> rcases List.mem_append.1 hmem' with hc' | hc'
    · rw [hlater.outline _ (h.lt hc), hlater.outline _ (h.lt hc')] at heq
      exact h.single hc hc' heq
    · obtain ⟨rfl, rfl⟩ : t' = t ∧ c' = table.classes.size := by simpa using hc'
      exact absurd heq (hold hc)
    · obtain ⟨rfl, rfl⟩ : t' = t ∧ c = table.classes.size := by simpa using hc
      exact absurd heq.symm (hold hc')
    · have heq := (List.mem_singleton.1 hc).trans (List.mem_singleton.1 hc').symm
      exact congrArg Prod.snd heq

/-- A request with the right number of arguments gives an instance with them. -/
theorem Canonical.instantiate (h : Canonical r table)
    (hlength : args.length = (table.templateAt t).params.length) :
    ∃ c r' table', r.instantiate table t args = .ok (c, r', table') ∧ Later r table r' table' ∧
      Holds r' table' ⟨t, args, c⟩ ∧ Canonical r' table' := by
  obtain ⟨hne, -⟩ | ⟨-, ⟨c, hfound, heq⟩ | ⟨hnone, heq⟩⟩ := instantiate_cases r table t args
  · exact absurd hlength hne
  · obtain ⟨hmem, cls, hcls, htypeArgs⟩ := mem_of_instance? hfound
    obtain ⟨args', hargs'⟩ := h.made hmem
    obtain ⟨cls', hcls', hunmarked⟩ := Option.map_eq_some_iff.1 hargs'.outline
    obtain rfl : cls = cls' := Option.some.inj (hcls.symm.trans hcls')
    obtain rfl : args = args' := htypeArgs.symm.trans (congrArg Class.typeArgs hunmarked)
    exact ⟨c, r, table, heq, .refl r table, hargs', h⟩
  · exact ⟨_, _, _, heq, h.add hlength hnone⟩

/-- Two instances are one class exactly if template and arguments are the same. -/
theorem Canonical.cls_eq_iff (h : Canonical r table) {g g' : Grant} (hg : Holds r table g)
    (hg' : Holds r table g') : g.cls = g'.cls ↔ g.template = g'.template ∧ g.args = g'.args := by
  obtain ⟨t, args, c⟩ := g
  obtain ⟨t', args', c'⟩ := g'
  constructor
  · rintro rfl
    have heq := Option.some.inj (hg.outline.symm.trans hg'.outline)
    exact ⟨Option.some.inj (congrArg Class.template heq), congrArg Class.typeArgs heq⟩
  · rintro ⟨rfl, rfl⟩
    exact h.single hg.listed hg'.listed (hg.outline.trans hg'.outline.symm)

/-- What a row of requests leaves: all that was granted holds, and requests are
granted exactly if they fit. -/
structure Serves (r : Registry) (table : TypeTable) (requests : List Request)
    (out : List Grant × Registry × TypeTable) : Prop where
  canonical : Canonical out.2.1 out.2.2
  later : Later r table out.2.1 out.2.2
  granted : ∀ g ∈ out.1, Holds out.2.1 out.2.2 g
  fitting : out.1.map (fun g => (g.template, g.args)) = requests.filterMap (Request.fitting? table)

theorem fitting?_congr (h : table'.templates = table.templates) :
    Request.fitting? table' = Request.fitting? table := by
  funext request
  cases request with
  | instantiate t args => simp only [Request.fitting?, templateAt_congr h]
  | analyze | declare => rfl

/-- A request that gives no instance leaves the rest of the row as it is. -/
theorem Serves.of_later {request : Request} {rest : List Request}
    {out : List Grant × Registry × TypeTable} (h : Serves r' table' rest out)
    (hlater : Later r table r' table') (hrequest : request.fitting? table = none) :
    Serves r table (request :: rest) out where
  canonical := h.canonical
  later := hlater.trans h.later
  granted := h.granted
  fitting := by rw [List.filterMap_cons_none hrequest, h.fitting, fitting?_congr hlater.templates]

theorem history_serves (requests : List Request) {r : Registry} {table : TypeTable}
    (h : Canonical r table) : Serves r table requests (history requests r table) := by
  induction requests generalizing r table with
  | nil =>
      exact ⟨h, .refl r table, fun g hg => absurd hg List.not_mem_nil, rfl⟩
  | cons request rest ih =>
      cases request with
      | declare cls =>
          exact (ih (h.later (later_addClass r table cls))).of_later (later_addClass r table cls) rfl
      | analyze c =>
          rw [history]
          cases hanalyze : analyze table c with
          | error f => exact (ih h).of_later (.refl r table) rfl
          | ok table' =>
              have hlater := later_analyze r hanalyze
              exact (ih (h.later hlater)).of_later hlater rfl
      | instantiate t args =>
          rw [history]
          by_cases hlength : args.length = (table.templateAt t).params.length
          · obtain ⟨c, r', table', heq, hlater, hnew, h'⟩ := h.instantiate hlength
            have hrest := ih h'
            rw [heq]
            refine ⟨hrest.canonical, hlater.trans hrest.later, ?_, ?_⟩
            · intro g hg
              rcases List.mem_cons.1 hg with rfl | hg
              · exact hnew.later hrest.later
              · exact hrest.granted g hg
            · have hfitting : Request.fitting? table (.instantiate t args) = some (t, args) :=
                if_pos hlength
              rw [List.filterMap_cons_some hfitting, List.map_cons, hrest.fitting,
                fitting?_congr hlater.templates]
          · obtain ⟨-, f, heq⟩ | ⟨heq, -⟩ := instantiate_cases r table t args
            · rw [heq]
              exact (ih h).of_later (.refl r table) (if_neg hlength)
            · exact absurd heq hlength

/-- Whatever is asked of a new registry, two requests for instances give the same
class exactly if they name the same template and the same arguments, and a class
has the members of its template with the parameters replaced by the arguments of
the first request that gave it. Identity of types is an equivalence. -/
theorem history_canonical (classes : List (String × ClassId)) (templates : List (String × TemplateId))
    (table : TypeTable) (requests : List Request) :
    let out := history requests { classes, templates } table
    Equivalence (fun a b : Ty => a.same b = true) ∧
    out.1.map (fun g => (g.template, g.args)) = requests.filterMap (Request.fitting? table) ∧
    (∀ g ∈ out.1, ∀ g' ∈ out.1,
      g.cls = g'.cls ↔ g.template = g'.template ∧ Ty.sameList g.args g'.args = true) ∧
    ∀ g ∈ out.1, ∃ first cls,
      out.1.find? (fun g' => g'.template = g.template && Ty.sameList g'.args g.args) = some first ∧
      out.2.2.class? g.cls = some cls ∧ cls.Fills (table.templateAt g.template) first.args ∧
      ((table.templateAt g.template).params.Nodup →
        ∀ cls' : Class, cls'.Fills (table.templateAt g.template) first.args →
          cls'.fields = cls.fields ∧ cls'.ctorParams = cls.ctorParams) := by
  intro out
  have hserves : Serves _ table requests out := history_serves requests
    ⟨fun hmem => absurd hmem List.not_mem_nil, fun hmem => absurd hmem List.not_mem_nil⟩
  refine ⟨Ty.same_equivalence, hserves.fitting, fun g hg g' hg' => ?_, fun g hg => ?_⟩
  · rw [Ty.sameList_iff_eq]
    exact hserves.canonical.cls_eq_iff (hserves.granted g hg) (hserves.granted g' hg')
  · have hholds := hserves.granted g hg
    have hself : (decide (g.template = g.template) && Ty.sameList g.args g.args) = true := by
      simp [Ty.sameList_iff_eq]
    obtain ⟨first, hfirst⟩ : ∃ first, out.1.find? (fun g' =>
        decide (g'.template = g.template) && Ty.sameList g'.args g.args) = some first :=
      Option.isSome_iff_exists.1 (List.find?_isSome.2 ⟨g, hg, hself⟩)
    have hargs : first.args = g.args := by
      have hsame := List.find?_some hfirst
      rw [Bool.and_eq_true, Ty.sameList_iff_eq] at hsame
      exact hsame.2
    obtain ⟨cls, hcls, hunmarked⟩ := Option.map_eq_some_iff.1 hholds.outline
    have hfills : cls.Fills (table.templateAt g.template) first.args := by
      rw [hargs, ← templateAt_congr hserves.later.templates]
      exact fills_instantiated hholds.fits hunmarked
    exact ⟨first, cls, hfirst, hcls, hfills, fun hparams cls' hcls' => hcls'.unique hparams hfills⟩

/-- A template with two parameters, and a class of its name. -/
def pairTable : TypeTable where
  classes := #[{ name := "Pair" }]
  templates := #[{ name := "Pair", params := ["A", "B"]
                   fields := [⟨"first", .param "A"⟩, ⟨"swap", .function (.param "B") [.param "A"]⟩]
                   ctorParams := [.param "B"] }]

/-- Arguments that name the parameters are not replaced again, and a request after
an analysis gives the class of the first one. -/
def pairRequests : List Request :=
  [.instantiate 0 [.param "B", .object (some 0)], .analyze 1, .instantiate 0 [.int],
    .declare { name := "Pair" }, .instantiate 0 [.param "B", .object (some 2)],
    .instantiate 0 [.param "B", .object (some 0)]]

theorem history_canonical_pair :
    let out := history pairRequests {} pairTable
    out.1.map Grant.cls = [1, 3, 1] ∧
    (∀ g ∈ out.1, ∀ g' ∈ out.1,
      g.cls = g'.cls ↔ g.template = g'.template ∧ Ty.sameList g.args g'.args = true) ∧
    ∃ first cls, out.2.2.class? 1 = some cls ∧ cls.Fills (pairTable.templateAt 0) first := by
  have h := history_canonical [] [] pairTable pairRequests
  refine ⟨by decide, h.2.2.1, ?_⟩
  obtain ⟨first, cls, -, hcls, hfills, -⟩ := h.2.2.2
    ⟨0, [.param "B", .object (some 0)], 1⟩ (List.mem_of_getElem? (i := 0) rfl)
  exact ⟨first.args, cls, hcls, hfills⟩

end Registry

end Resumable
