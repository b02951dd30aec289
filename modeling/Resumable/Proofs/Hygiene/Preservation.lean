import Resumable.Proofs.Generator.Outcomes
import Resumable.Proofs.Hygiene.Extension

/-!
# No capture

Lowering functions one after the other keeps programs hygienic. A mention is told
apart by its name: a plain one is looked up as before, since no new function
declares a plain name; a drawn variable has a name and a number for itself in the
whole program; and a label or a generator object is found in the lowered function
before any other function that declares the same name.
-/

namespace Resumable

open Label (Form)

theorem Variable.not_isPlain_of_form {v : Variable} {a : Form} (h : v.name = a.text) : ¬ v.IsPlain := by
  intro hplain
  exact hplain (h ▸ a.head?_text)

namespace Pass

open Continuation (Drawn)

variable {id : FuncId} {count : Nat} {more : List Variable} {w w' : Workspace}

def Added (w : Workspace) (count : Nat) (more : List Variable) (u : Variable) : Prop :=
  Drawn w u ∧ u.id < count ∨ u ∈ more

namespace Extended

theorem declared_eq (h : Extended id count more w w') {fn : FuncId} (hfn : fn ≤ w.program.size)
    (hne : fn ≠ id) : w'.program.declared fn = w.program.declared fn := by
  refine Program.declared_of_code? ?_
  rw [Program.code?_eq_content?, h.frame.others fn hfn hne, ← Program.code?_eq_content?]

theorem bodyOf_eq (h : Extended id count more w w') {fn : FuncId} (hfn : fn ≤ w.program.size)
    (hne : fn ≠ id) : w'.program.bodyOf fn = w.program.bodyOf fn := by
  rw [Program.bodyOf_eq_content?, h.frame.others fn hfn hne, ← Program.bodyOf_eq_content?]

theorem added_of_declared (h : Extended id count more w w') {fn : FuncId} {u : Variable}
    (hu : u ∈ w'.program.declared fn) : u ∈ w.program.declared fn ∨ Added w count more u := by
  by_cases hfn : fn ≤ w.program.size
  · by_cases hne : fn = id
    · rw [hne, h.own, List.mem_append] at hu
      rw [hne]
      exact hu.imp_right .inr
    · exact .inl (h.declared_eq hfn hne ▸ hu)
  · exact .inr (.inl (h.new fn (Nat.lt_of_not_le hfn) u hu))

/-- The numbers of added variables are new. -/
theorem id_of_added (h : Extended id count more w w') {u : Variable} (hu : Added w count more u) :
    w.program.varCount ≤ u.id ∧ u.id < w'.program.varCount := by
  have hcount := h.count_ge
  rw [h.varCount]
  rcases hu with ⟨⟨i, hi, -⟩, hlt⟩ | hu
  · omega
  · have hmem : u.id ∈ List.range' count more.length := h.ids ▸ List.mem_map_of_mem hu
    rw [List.mem_range'_1] at hmem
    omega

/-- The names of added variables are made up, and numbers that are drawn for them
are new. -/
theorem form_of_added (h : Extended id count more w w') {u : Variable} (hu : Added w count more u) :
    ∃ a : Form, a.isProper = true ∧ u.name = a.text ∧
      ∀ n, a = .fresh n → w.names.fresh < n ∧ n ≤ w'.names.fresh := by
  have hfresh := h.fresh
  rcases hu with ⟨⟨i, hi, hname⟩, hlt⟩ | hu
  · refine ⟨.fresh (w.names.fresh + i + 1), rfl, hname, ?_⟩
    rintro n ⟨⟩
    omega
  · obtain ⟨a, ha, hmade, hname⟩ := h.made u hu
    exact ⟨a, ha, hname, fun n hn => absurd hn (hmade n)⟩

theorem not_isPlain_of_added (h : Extended id count more w w') {u : Variable}
    (hu : Added w count more u) : ¬ u.IsPlain := by
  obtain ⟨a, -, hname, -⟩ := h.form_of_added hu
  exact Variable.not_isPlain_of_form hname

/-- A drawn variable has its name and its number for itself. -/
theorem name_iff_id (h : Extended id count more w w') {u v : Variable} (hv : Drawn w v)
    (hlt : v.id < count) (hu : Added w count more u) : u.name = v.name ↔ u.id = v.id := by
  obtain ⟨i, hi, hname⟩ := hv
  rcases hu with ⟨⟨j, hj, hname'⟩, -⟩ | hu
  · constructor
    · intro heq
      have hforms : Form.fresh (w.names.fresh + j + 1) = Form.fresh (w.names.fresh + i + 1) :=
        Form.text_injective rfl rfl (hname'.symm.trans (heq.trans hname))
      rw [Form.fresh.injEq] at hforms
      omega
    · intro heq
      have hij : j = i := by omega
      rw [hname, hname', hij]
  · obtain ⟨a, ha, hmade, hname'⟩ := h.made u hu
    have hmem : u.id ∈ List.range' count more.length := h.ids ▸ List.mem_map_of_mem hu
    rw [List.mem_range'_1] at hmem
    constructor
    · intro heq
      exact absurd (Form.text_injective (b := .fresh (w.names.fresh + i + 1)) ha rfl
        (hname'.symm.trans (heq.trans hname))) (hmade _)
    · intro heq
      omega

/-- What no added variable meets is found where it was. -/
theorem find?_declared (h : Extended id count more w w') {test : Variable → Bool}
    (htest : ∀ u, Added w count more u → test u = false) (fn : FuncId) :
    (w'.program.declared fn).find? test = (w.program.declared fn).find? test := by
  by_cases hfn : fn ≤ w.program.size
  · by_cases hne : fn = id
    · have hmore : more.find? test = none :=
        List.find?_eq_none.2 fun u hu => by rw [htest u (.inr hu)]; exact Bool.false_ne_true
      rw [hne, h.own, List.find?_append, hmore, Option.or_none]
    · rw [h.declared_eq hfn hne]
  · have hlt := Nat.lt_of_not_le hfn
    rw [Program.declared_of_size_lt hlt]
    refine List.find?_eq_none.2 fun u hu => ?_
    rw [htest u (.inl (h.new fn hlt u hu))]
    exact Bool.false_ne_true

/-- The lookups of a plain variable that was there before agree as they did. -/
theorem agrees (h : Extended id count more w w') {fn o : FuncId} {v : Variable} (hplain : v.IsPlain)
    (hid : v.id < w.program.varCount)
    (hchain : (w'.program.chain fn).filter (fun a => decide (a ≤ w.program.size)) = w.program.chain o)
    (hagrees : w.program.Agrees o v) : w'.program.Agrees fn v := by
  have hname : ∀ u, Added w count more u → decide (u.name = v.name) = false := by
    intro u hu
    refine decide_eq_false fun heq => h.not_isPlain_of_added hu ?_
    rwa [Variable.IsPlain, heq]
  have hnumber : ∀ u, Added w count more u → decide (u.id = v.id) = false := by
    intro u hu
    have hnew := (h.id_of_added hu).1
    exact decide_eq_false (by omega)
  unfold Program.Agrees
  rw [Program.lookup_of_filter hchain (h.find?_declared hname),
    Program.lookup_of_filter hchain (h.find?_declared hnumber)]
  exact hagrees

end Extended

end Pass

/-! ## Mentions -/

/-- Why the lookups of a mention agree, for any functions that are still to come. -/
inductive Program.Resolved (p : Program) (fresh : Nat) (fn : FuncId) (v : Variable) : Prop where
  | plain : v.IsPlain → p.Agrees fn v → Resolved p fresh fn v
  | drawn (n : Nat) : v.name = (Form.fresh n).text → n ≤ fresh →
      (∀ a, ∀ u ∈ p.declared a, u.name = v.name ↔ u.id = v.id) → Resolved p fresh fn v
  | near (owner : FuncId) : ¬ v.IsPlain →
      (p.declared owner).find? (fun u => u.name = v.name) = some v →
      (p.declared owner).find? (fun u => u.id = v.id) = some v →
      (fn = owner ∨ p.declared fn = [] ∧ p.parent fn = owner) → Resolved p fresh fn v

theorem Program.Resolved.agrees {p : Program} {fresh : Nat} {fn : FuncId} {v : Variable}
    (hp : p.Forest) (h : p.Resolved fresh fn v) : p.Agrees fn v := by
  cases h with
  | plain _ hagrees => exact hagrees
  | drawn n _ _ hown => exact lookup_congr fun a u hu => decide_eq_decide.2 (hown a u hu)
  | near owner _ hname hid hfn =>
      exact (lookup_near hp hname hfn).trans (lookup_near hp hid hfn).symm

namespace Pass

variable {id : FuncId} {count : Nat} {more : List Variable} {w w' : Workspace}
  {todo : List FuncId} {chosen : List Stmt → List Variable}

/-- A hygienic program in the middle of a pass, with functions that are still to be
lowered. -/
structure Orderly (chosen : List Stmt → List Variable) (todo : List FuncId) (w : Workspace) : Prop where
  known : ∀ fn ∈ todo, fn ≤ w.program.size
  untouched : ∀ fn ∈ todo, ∀ v ∈ w.program.declared fn ++ mentions (w.program.bodyOf fn), v.IsPlain
  distinct : ∀ fn, ((w.program.declared fn).map Variable.name).Nodup
  counted : ∀ fn, ∀ v ∈ w.program.declared fn ++ mentions (w.program.bodyOf fn),
    v.id < w.program.varCount
  drawn : ∀ fn, ∀ u ∈ w.program.declared fn, ∀ n, u.name = (Form.fresh n).text → n ≤ w.names.fresh
  resolved : ∀ fn, ∀ v ∈ chosen (w.program.bodyOf fn), w.program.Resolved w.names.fresh fn v

theorem Extended.distinct_declared (h : Extended id count more w w')
    (hw : Orderly chosen (id :: todo) w) (fn : FuncId) :
    ((w'.program.declared fn).map Variable.name).Nodup := by
  by_cases hfn : fn ≤ w.program.size
  · by_cases hne : fn = id
    · rw [hne, h.own, List.map_append]
      refine List.nodup_append.2 ⟨hw.distinct id, h.distinct, ?_⟩
      rintro name hname _ hmore rfl
      obtain ⟨v, hv, rfl⟩ := List.mem_map.1 hname
      obtain ⟨u, hu, heq⟩ := List.mem_map.1 hmore
      refine h.not_isPlain_of_added (.inr hu) ?_
      rw [Variable.IsPlain, heq]
      exact hw.untouched id (.head _) v (List.mem_append_left _ hv)
    · rw [h.declared_eq hfn hne]
      exact hw.distinct fn
  · have hlt := Nat.lt_of_not_le hfn
    have hids := h.apart fn hlt
    rw [List.Nodup, List.pairwise_map] at hids ⊢
    refine hids.imp_of_mem fun {u v} hu hv hne heq => hne ?_
    obtain ⟨hdrawn, hcount⟩ := h.new fn hlt v hv
    exact (h.name_iff_id hdrawn hcount (.inl (h.new fn hlt u hu))).1 heq

theorem Extended.counted (h : Extended id count more w w') (hw : Orderly chosen (id :: todo) w)
    (fn : FuncId) : ∀ v ∈ w'.program.declared fn ++ mentions (w'.program.bodyOf fn),
      v.id < w'.program.varCount := by
  have hle : w.program.varCount ≤ w'.program.varCount := by
    rw [h.varCount]
    exact Nat.le_trans h.count_ge (Nat.le_add_right _ _)
  intro v hv
  rcases List.mem_append.1 hv with hv | hv
  · rcases h.added_of_declared hv with hold | hadded
    · exact Nat.lt_of_lt_of_le (hw.counted fn v (List.mem_append_left _ hold)) hle
    · exact (h.id_of_added hadded).2
  · by_cases hfn : fn = id ∨ w.program.size < fn
    · rcases h.mentioned fn hfn v hv with (hrefs | hdrawn) | ⟨hmore, -⟩
      · refine Nat.lt_of_lt_of_le (hw.counted id v ?_) hle
        exact List.mem_append_right _ (mem_mentions_of_refs hrefs)
      · exact (h.id_of_added (.inl hdrawn)).2
      · exact (h.id_of_added (.inr hmore)).2
    · rw [not_or, Nat.not_lt] at hfn
      rw [h.bodyOf_eq hfn.2 hfn.1] at hv
      exact Nat.lt_of_lt_of_le (hw.counted fn v (List.mem_append_right _ hv)) hle

/-- A mention in a function that stays as it is. -/
theorem Extended.resolved_old (h : Extended id count more w w') (hforest : w.program.Forest)
    (hle : id ≤ w.program.size) (hw : Orderly chosen (id :: todo) w) {fn : FuncId}
    (hfn : fn ≤ w.program.size) (hne : fn ≠ id) {v : Variable} (hv : v.id < w.program.varCount)
    (hresolved : w.program.Resolved w.names.fresh fn v) :
    w'.program.Resolved w'.names.fresh fn v := by
  have hcount := h.count_ge
  have hfresh := h.fresh
  cases hresolved with
  | plain hplain hagrees =>
      have hchain := h.frame.filter_chain hforest hle fn (Nat.le_trans hfn h.frame.size)
      rw [if_pos hfn] at hchain
      exact .plain hplain (h.agrees hplain hv hchain hagrees)
  | drawn n hname hn hown =>
      refine .drawn n hname (by omega) fun a u hu => ?_
      rcases h.added_of_declared hu with hold | hadded
      · exact hown a u hold
      · have hnew := (h.id_of_added hadded).1
        obtain ⟨b, hb, htext, hdrawn⟩ := h.form_of_added hadded
        constructor
        · intro heq
          have hform : b = .fresh n :=
            Form.text_injective hb rfl (htext.symm.trans (heq.trans hname))
          have hlt := (hdrawn n hform).1
          omega
        · intro heq
          omega
  | near owner hmade hname hid hplace =>
      -- The function that declares the variable has been lowered before.
      have hmem := List.mem_of_find?_eq_some hname
      have howner : owner ≠ id := by
        rintro rfl
        exact hmade (hw.untouched owner (.head _) v (List.mem_append_left _ hmem))
      have hownerLe : owner ≤ w.program.size := by
        by_contra hlt
        rw [Program.declared_of_size_lt (Nat.lt_of_not_le hlt)] at hmem
        exact absurd hmem List.not_mem_nil
      refine .near owner hmade ?_ ?_ (hplace.imp_right fun hnear => ⟨?_, ?_⟩)
      · rw [h.declared_eq hownerLe howner]
        exact hname
      · rw [h.declared_eq hownerLe howner]
        exact hid
      · rw [h.declared_eq hfn hne]
        exact hnear.1
      · rcases h.frame.old fn hfn with hsame | ⟨hparent, -⟩
        · rw [hsame]
          exact hnear.2
        · exact absurd (hnear.2.symm.trans hparent) howner

/-- A mention in the function that was lowered or in a new one. -/
theorem Extended.resolved_new (h : Extended id count more w w') (hforest : w.program.Forest)
    (hle : id ≤ w.program.size) (hw : Orderly chosen (id :: todo) w)
    (hrefs : ∀ body, bodyRefs body ⊆ chosen body) {fn : FuncId} (hfn : fn = id ∨ w.program.size < fn)
    {v : Variable} (hv : v ∈ mentions (w'.program.bodyOf fn)) :
    w'.program.Resolved w'.names.fresh fn v := by
  have hcount := h.count_ge
  have hknown : fn ≤ w'.program.size := by
    by_contra hlt
    rw [bodyOf_of_size_lt (Nat.lt_of_not_le hlt)] at hv
    exact absurd hv List.not_mem_nil
  rcases h.mentioned fn hfn v hv with (hold | ⟨hdrawn, hlt⟩) | ⟨hmore, hplace⟩
  · have hchain := h.frame.filter_chain hforest hle fn hknown
    have horigin : (if fn ≤ w.program.size then fn else id) = id := by
      rcases hfn with rfl | hfn
      · exact ite_self _
      · exact if_neg (Nat.not_le_of_lt hfn)
    rw [horigin] at hchain
    have hmem := List.mem_append_right (w.program.declared id) (mem_mentions_of_refs hold)
    have hplain := hw.untouched id (.head _) v hmem
    exact .plain hplain (h.agrees hplain (hw.counted id v hmem) hchain
      ((hw.resolved id v (hrefs _ hold)).agrees hforest))
  · obtain ⟨a, ha, hname, hform⟩ := h.form_of_added (.inl ⟨hdrawn, hlt⟩)
    obtain ⟨i, hi, hname'⟩ := hdrawn
    have hfresh : a = .fresh (w.names.fresh + i + 1) :=
      Form.text_injective ha rfl (hname.symm.trans hname')
    refine .drawn _ hname' (hform _ hfresh).2 fun b u hu => ?_
    rcases h.added_of_declared hu with hold | hadded
    · have hold' := hw.counted b u (List.mem_append_left _ hold)
      constructor
      · intro heq
        have hn := hw.drawn b u hold _ (heq.trans hname')
        omega
      · intro heq
        omega
    · exact h.name_iff_id ⟨i, hi, hname'⟩ hlt hadded
  · have hadded : Added w count more v := .inr hmore
    have hnone {test : Variable → Bool} (htest : ∀ u ∈ w.program.declared id, test u = false) :
        (w'.program.declared id).find? test = more.find? test := by
      have hfirst : (w.program.declared id).find? test = none :=
        List.find?_eq_none.2 fun u hu => by rw [htest u hu]; exact Bool.false_ne_true
      rw [h.own, List.find?_append, hfirst, Option.none_or]
    refine .near id (h.not_isPlain_of_added hadded) ?_ ?_ hplace
    · rw [hnone fun u hu => decide_eq_false fun heq => ?_]
      · exact find?_of_nodup_map h.distinct hmore
      · refine h.not_isPlain_of_added hadded ?_
        rw [Variable.IsPlain, ← heq]
        exact hw.untouched id (.head _) u (List.mem_append_left _ hu)
    · rw [hnone fun u hu => decide_eq_false fun heq => ?_]
      · have hids : (more.map Variable.id).Nodup := by
          rw [h.ids]
          exact List.nodup_range'
        exact find?_of_nodup_map hids hmore
      · have hlt := hw.counted id u (List.mem_append_left _ hu)
        have hge := (h.id_of_added hadded).1
        omega

theorem Extended.orderly (h : Extended id count more w w') (hforest : w.program.Forest)
    (hw : Orderly chosen (id :: todo) w) (hid : id ∉ todo) (hrefs : ∀ body, bodyRefs body ⊆ chosen body)
    (hmentions : ∀ body, chosen body ⊆ mentions body) : Orderly chosen todo w' where
  known fn hfn := Nat.le_trans (hw.known fn (.tail _ hfn)) h.frame.size
  untouched fn hfn := by
    have hne : fn ≠ id := by
      rintro rfl
      exact hid hfn
    have hle := hw.known fn (.tail _ hfn)
    rw [h.declared_eq hle hne, h.bodyOf_eq hle hne]
    exact hw.untouched fn (.tail _ hfn)
  distinct := h.distinct_declared hw
  counted := h.counted hw
  drawn fn u hu n hname := by
    have hcount := h.count_ge
    have hfresh := h.fresh
    rcases h.added_of_declared hu with hold | hadded
    · have hn := hw.drawn fn u hold n hname
      omega
    · obtain ⟨a, ha, htext, hform⟩ := h.form_of_added hadded
      exact (hform n (Form.text_injective ha rfl (htext.symm.trans hname))).2
  resolved fn v hv := by
    have hle := hw.known id (.head _)
    by_cases hfn : fn = id ∨ w.program.size < fn
    · exact h.resolved_new hforest hle hw hrefs hfn (hmentions _ hv)
    · rw [not_or, Nat.not_lt] at hfn
      rw [h.bodyOf_eq hfn.2 hfn.1] at hv
      refine h.resolved_old hforest hle hw hfn.2 hfn.1 ?_ (hw.resolved fn v hv)
      exact hw.counted fn v (List.mem_append_right _ (hmentions _ hv))

section

variable {config : Config} {builtins : Option Generator.Builtins} {stats : List Stats}

theorem orderly_of_transformEach (hrefs : ∀ body, bodyRefs body ⊆ chosen body)
    (hmentions : ∀ body, chosen body ⊆ mentions body) (howned : w.program.Owned)
    (hseparate : w.program.Separate) (htodo : todo.Nodup) (hw : Orderly chosen todo w)
    (h : transformEach config builtins todo w = (stats, none, w')) :
    w'.program.Forest ∧ Orderly chosen [] w' := by
  induction todo generalizing w stats with
  | nil =>
      cases h
      exact ⟨howned.forest, hw⟩
  | cons id rest ih =>
      unfold transformEach at h
      cases hfirst : transform config builtins id w with
      | error e w₁ =>
          rw [hfirst] at h
          cases h
      | ok first w₁ =>
          rw [hfirst] at h
          obtain ⟨hid, hrest⟩ := List.nodup_cons.1 htodo
          obtain ⟨howned₁, hseparate₁⟩ := owned_of_transform howned hseparate hfirst
          obtain ⟨count, more, hextended⟩ := extended_of_transform howned hseparate hfirst
          rcases hothers : transformEach config builtins rest w₁ with ⟨others, failure, w₂⟩
          simp only [hothers, Prod.mk.injEq] at h
          obtain ⟨-, rfl, rfl⟩ := h
          exact ih howned₁ hseparate₁ hrest
            (hextended.orderly howned.forest hw hid hrefs hmentions) hothers

/-- Before a pass, all names are plain. -/
theorem orderly_of_plain (hplain : w.program.Plain)
    (hdistinct : ∀ fn, ((w.program.declared fn).map Variable.name).Nodup)
    (hmentions : ∀ body, chosen body ⊆ mentions body) (hagrees : w.program.AgreesOn chosen)
    (htodo : ∀ fn ∈ todo, fn ≤ w.program.size) : Orderly chosen todo w where
  known := htodo
  untouched fn _ := hplain.named fn
  distinct := hdistinct
  counted := hplain.counted
  drawn fn u hu _ hname :=
    absurd (hplain.named fn u (List.mem_append_left _ hu)) (Variable.not_isPlain_of_form hname)
  resolved fn v hv :=
    .plain (hplain.named fn v (List.mem_append_right _ (hmentions _ hv))) (hagrees fn v hv)

theorem Orderly.agreesOn (h : Orderly chosen todo w) (hforest : w.program.Forest) :
    w.program.AgreesOn chosen :=
  fun fn v hv => (h.resolved fn v hv).agrees hforest

theorem todo_of_transformAll (h : transformAll config builtins w = (stats, none, w')) :
    ∃ todo, todo.Nodup ∧ (∀ fn ∈ todo, fn ≤ w.program.size) ∧
      transformEach config builtins todo w = (stats, none, w') := by
  refine ⟨_, w.program.nodup_ids.filter _, fun fn hfn => ?_, h⟩
  exact (Program.isSome_func?.1 (Program.mem_ids.1 (List.mem_of_mem_filter hfn))).2

/-- Lowering a program captures no variable: however functions are nested, a
reference finds by its name what it finds by its number, and no function declares a
name twice. Lookups of the variables that statements bind stay in agreement as
well. The functions of the program form a tree, and no statement stands at two places
of it (`hseparate`): new expressions for a shared statement would appear at both. -/
theorem transformAll_hygienic (config : Config) (builtins : Option Generator.Builtins)
    (w w' : Workspace) (stats : List Stats) (howned : w.program.Owned)
    (hseparate : w.program.Separate) (hplain : w.program.Plain) (hhygienic : w.program.Hygienic)
    (h : transformAll config builtins w = (stats, none, w')) :
    w'.program.Hygienic ∧
      (w.program.AgreesOn bindings → w'.program.AgreesOn bindings) := by
  obtain ⟨todo, htodo, hknown, hrun⟩ := todo_of_transformAll h
  -- Both parts are one argument, about references and about all mentions.
  have hkept {chosen : List Stmt → List Variable} (hrefs : ∀ body, bodyRefs body ⊆ chosen body)
      (hmentions : ∀ body, chosen body ⊆ mentions body) (hagrees : w.program.AgreesOn chosen) :
      w'.program.AgreesOn chosen ∧ ∀ fn, ((w'.program.declared fn).map Variable.name).Nodup := by
    have hstart := orderly_of_plain hplain hhygienic.distinct hmentions hagrees hknown
    obtain ⟨hforest, hend⟩ :=
      orderly_of_transformEach hrefs hmentions howned hseparate htodo hstart hrun
    exact ⟨hend.agreesOn hforest, hend.distinct⟩
  refine ⟨?_, fun hbindings fn v hv => ?_⟩
  · obtain ⟨hagrees, hdistinct⟩ := hkept (fun _ => List.Subset.refl _)
      (fun _ _ hv => mem_mentions_of_refs hv) hhygienic.agrees
    exact ⟨hdistinct, hagrees⟩
  · refine (hkept (fun _ _ hv => mem_mentions_of_refs hv) (fun _ => List.Subset.refl _)
      fun fn v hv => ?_).1 fn v (mem_mentions_iff.2 (.inr hv))
    exact (mem_mentions_iff.1 hv).elim (hhygienic.agrees fn v) (hbindings fn v)

/-- A generator in a generator. Each declares an `x` of its own, and the inner one
also uses a variable of the outer one. -/
def generators : Workspace :=
  let x : Variable := ⟨0, "x", .variant⟩
  let y : Variable := ⟨1, "y", .variant⟩
  let own : Variable := ⟨2, "x", .variant⟩
  let outer := Generator.nestedGenerator
    [.whileLoop (.ref x) [.yield (.conditional (.mkCall (.ref y) [.ref x]) (.lambda 2 .variant)
      (.ref x) .variant)] ""]
  let generator := (outer.program.modifyFunc 1 fun f => { f with params := [x, y] }).modifyFunc 2
    fun f => { f with
      params := [own]
      result := .object (some 0)
      generator := true
      body := [.ifElse (.ref own) [.yield (.mkCall (.ref y) [.ref own])] []] }
  { outer with program := generator }

theorem forest_generators : generators.program.Forest :=
  ((Generator.forest_nestedGenerator _).modifyFunc (by intro f; rfl) (by intro f; rfl) 1).modifyFunc
    (by intro f; rfl) (by intro f; rfl) 2

theorem hygienic_generators : generators.program.Hygienic where
  distinct := Program.forall_declared (P := fun _ vs _ => (vs.map Variable.name).Nodup) (by simp)
    (by decide +kernel)
  agrees := by
    refine Program.forall_bodyOf (P := fun fn body => ∀ v ∈ bodyRefs body,
      generators.program.Agrees fn v) (by simp) (List.forall_mem_cons.2 ⟨?_,
        List.forall_mem_singleton.2 ?_⟩)
    · exact List.forall_mem_cons.2 ⟨rfl, List.forall_mem_cons.2 ⟨rfl, List.forall_mem_cons.2 ⟨rfl,
        List.forall_mem_singleton.2 rfl⟩⟩⟩
    · exact List.forall_mem_cons.2 ⟨rfl, List.forall_mem_cons.2 ⟨rfl,
        List.forall_mem_singleton.2 rfl⟩⟩

theorem transformAll_hygienic_generators : generators.program.Owned ∧
    generators.program.Separate ∧ generators.program.Plain ∧ generators.program.Hygienic ∧
    ∃ stats w', transformAll {} (some singleBuiltins) generators = (stats, none, w') ∧
      (∀ fn ∈ [1, 2], [Label.begin, Label.finish] ⊆ (w'.program.declared fn).map Variable.name) ∧
      w'.program.Hygienic := by
  have howned : generators.program.Owned :=
    (Program.wellFormed_of_ids forest_generators (by decide +kernel)).toOwned
  have hseparate : generators.program.Separate := Program.separate_of_ids (by decide +kernel)
  have hplain : generators.program.Plain := Program.plain_of_ids (by decide +kernel)
  refine ⟨howned, hseparate, hplain, hygienic_generators, ?_⟩
  have hnone : (transformAll {} (some singleBuiltins) generators).2.1.isNone = true := by
    decide +kernel
  have hlabels : ∀ fn ∈ [1, 2], [Label.begin, Label.finish] ⊆
      (((transformAll {} (some singleBuiltins) generators).2.2.program.declared fn).map
        Variable.name) := by decide +kernel
  rcases hrun : transformAll {} (some singleBuiltins) generators with ⟨stats, failure, w'⟩
  rw [hrun, Option.isNone_iff_eq_none] at hnone
  rw [hrun] at hlabels
  dsimp only at hnone
  subst hnone
  exact ⟨stats, w', rfl, hlabels, (transformAll_hygienic {} _ generators w' stats howned hseparate
    hplain hygienic_generators hrun).1⟩

end

end Pass

end Resumable
