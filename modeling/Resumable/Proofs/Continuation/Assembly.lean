import Mathlib.Data.List.Range
import Resumable.Proofs.Arena.Frame
import Resumable.Proofs.Continuation.Chain

/-!
# How a conversion is assembled

A conversion makes one station after the other: a function that receives the
value of one operand in its parameter and returns what is to be done next. This
module says which stations a conversion makes for which operands, what each of
them returns, and that they are all the functions it adds to a program.
-/

namespace Resumable

def Ty.orVoid : Ty → Ty
  | .absent => .void
  | t => t

@[simp] theorem Ty.orVoid_orVoid (t : Ty) : t.orVoid.orVoid = t.orVoid := by
  cases t <;> rfl

@[simp] theorem Ty.callResult?_function (t : Ty) (params : List Ty) :
    (Ty.function t.orVoid params).callResult? = some t.orVoid := by
  cases t <;> rfl

namespace Continuation

/-- A function that a conversion makes: the operand whose value it receives, its
parameter and locals, the statements that set the locals, and what it returns. -/
structure Station where
  id : FuncId
  operand : Expr
  param : Variable
  locals : List Variable
  prologue : List Stmt
  returned : Expr

namespace Station

def body (s : Station) : List Stmt :=
  s.prologue ++ [.ret s.returned]

def content (s : Station) : Content :=
  ⟨⟨"", [s.param], s.locals, s.body⟩, s.returned.type.orVoid, false⟩

def literal (s : Station) : Expr :=
  .lambda s.id (.function s.returned.type.orVoid [s.param.type])

end Station

/-- What there is to be assembled: an expression whose value goes to a
continuation, or operands that are evaluated one after the other into variables
before an expression. -/
inductive Job where
  | expr (e : Expr) (k : Option Expr)
  | row (es : List Expr) (qs : List Variable) (inner : Expr)

/-- The expression that a job results in and the stations made for it. -/
inductive Assembles : Job → Expr → List Station → Prop where
  | whole {e : Expr} (k : Option Expr) : Whole e → Assembles (.expr e k) (deliver k e) []
  | operates {e f e' : Expr} {task : Task} {es : List Expr} {qs : List Variable}
      {made : List Station} (k : Option Expr) : Operates e task es →
      Operates f task (qs.map .ref) → f.type = e.type →
      Assembles (.row es qs (deliver k f)) e' made → Assembles (.expr e k) e' made
  | chooses {e x a b e' : Expr} {task : Task} {yes no k shared : Option Expr} {s : Station}
      {made made' made'' : List Station} : Chooses e task x yes no →
      Shares k s.locals s.prologue shared → s.operand = x → s.param.type = x.type →
      Assembles (.expr (yes.getD (.ref s.param)) shared) a made →
      Assembles (.expr (no.getD (.ref s.param)) shared) b made' →
      s.returned = .conditional (.ref s.param) a b (resultOf k e.type).orVoid →
      Assembles (.expr x (some s.literal)) e' made'' →
      Assembles (.expr e k) e' (s :: (made ++ made') ++ made'')
  | done (inner : Expr) : Assembles (.row [] [] inner) inner []
  | next {e e' inner : Expr} {es : List Expr} {qs : List Variable} {s : Station}
      {made made' : List Station} : Assembles (.row es qs inner) s.returned made →
      s.locals = [] → s.prologue = [] → s.operand = e → s.param.type = e.type →
      Assembles (.expr e (some s.literal)) e' made' →
      Assembles (.row (e :: es) (s.param :: qs) inner) e' (made ++ [s] ++ made')

/-! ## Functions added to a program -/

/-- The functions added between two moments are stations, whose variables have
numbers from `low` on. -/
structure Adds (low : Nat) (w w' : Workspace) (made : List Station) : Prop where
  size : w'.program.size = w.program.size + made.length
  ids : (made.map Station.id).Perm (List.range' (w.program.size + 1) made.length)
  old : ∀ fn, fn ≤ w.program.size → w'.program.content? fn = w.program.content? fn
  new : ∀ s ∈ made, w'.program.content? s.id = some s.content
  varCount : w.program.varCount ≤ w'.program.varCount
  drawn : ∀ s ∈ made, ∀ v ∈ s.param :: s.locals, low ≤ v.id ∧ v.id < w'.program.varCount
  continuations : w'.continuations = w.continuations + made.length

section

variable {owner : FuncId} {low low' : Nat} {w w₁ w' : Workspace} {made made' : List Station}

namespace Adds

theorem bounds (h : Adds low w w' made) {s : Station} (hs : s ∈ made) :
    w.program.size < s.id ∧ s.id ≤ w'.program.size := by
  have hid : s.id ∈ List.range' (w.program.size + 1) made.length :=
    h.ids.mem_iff.1 (List.mem_map_of_mem hs)
  have hrange := List.mem_range'_1.1 hid
  have hlt : s.id < w'.program.size + 1 := by
    rw [h.size, Nat.add_right_comm]
    exact hrange.2
  exact ⟨hrange.1, Nat.le_of_lt_succ hlt⟩

protected theorem refl (low : Nat) (w : Workspace) : Adds low w w [] where
  size := rfl
  ids := .nil
  old _ _ := rfl
  new _ hs := absurd hs List.not_mem_nil
  varCount := Nat.le_refl _
  drawn _ hs := absurd hs List.not_mem_nil
  continuations := rfl

protected theorem trans (first : Adds low w w₁ made) (second : Adds low w₁ w' made') :
    Adds low w w' (made ++ made') where
  size := by
    have hfirst := first.size
    have hsecond := second.size
    rw [List.length_append]
    omega
  ids := by
    have hids := second.ids
    rw [first.size, Nat.add_right_comm] at hids
    rw [List.map_append, List.length_append, ← List.range'_append_1]
    exact first.ids.append hids
  old fn hfn := by
    have hsize := first.size
    rw [second.old fn (by omega), first.old fn hfn]
  new s hs := by
    rcases List.mem_append.1 hs with hs | hs
    · rw [second.old s.id (first.bounds hs).2, first.new s hs]
    · exact second.new s hs
  varCount := Nat.le_trans first.varCount second.varCount
  drawn s hs v hv := by
    rcases List.mem_append.1 hs with hs | hs
    · obtain ⟨hlow, hlt⟩ := first.drawn s hs v hv
      exact ⟨hlow, Nat.lt_of_lt_of_le hlt second.varCount⟩
    · exact second.drawn s hs v hv
  continuations := by
    have hfirst := first.continuations
    have hsecond := second.continuations
    rw [List.length_append]
    omega

theorem known (h : Adds low w w' made) {fn : FuncId} {c : Content}
    (hc : w.program.content? fn = some c) : w'.program.content? fn = w.program.content? fn := by
  obtain ⟨f, hf, -⟩ := Option.map_eq_some_iff.1 hc
  exact h.old fn (Program.isSome_func?.1 (Option.isSome_of_eq_some hf)).2

theorem mono (h : Adds low w w' made) (hle : low' ≤ low) : Adds low' w w' made :=
  { h with drawn := fun s hs v hv => ⟨Nat.le_trans hle (h.drawn s hs v hv).1, (h.drawn s hs v hv).2⟩ }

end Adds

/-- Drawing variables adds no function. -/
theorem adds_of_varCount {n : Nat} (hn : w.program.varCount ≤ n)
    (hw : w'.program = { w.program with varCount := n })
    (hc : w'.continuations = w.continuations) : Adds low w w' [] where
  size := by rw [hw]; rfl
  ids := .nil
  old fn _ := by rw [hw]; rfl
  new _ hs := absurd hs List.not_mem_nil
  varCount := by rw [hw]; exact hn
  drawn _ hs := absurd hs List.not_mem_nil
  continuations := hc

theorem adds_freshVariable {type : Ty} {v : Variable}
    (h : Lowering.freshVariable type w = .ok v w') : Adds low w w' [] := by
  obtain ⟨-, -, hw, hcount⟩ := freshVariable_spec h
  exact adds_of_varCount (Nat.le_succ _) hw hcount

/-! ## Contents of continuations -/

theorem content?_begin {q : Variable} {result : Ty} {id : FuncId}
    (h : begin owner q result w = .ok id w') (fn : FuncId) :
    w'.program.content? fn = if fn = w.program.size + 1 then
      some ⟨⟨"", [q], [], []⟩, result.orVoid, false⟩ else w.program.content? fn := by
  cases h
  change (w.program.newFunc owner "" [q] result).2.content? fn = _
  simp only [Program.newFunc]
  rw [Program.content?_modifyFunc_of_content (by intro f; rfl), Program.content?,
    Program.func?_push]
  split
  · cases result <;> rfl
  · rfl

theorem content?_reparent {p p' : Program} {child parent : FuncId}
    (h : p.reparent child parent = .ok p') (fn : FuncId) : p'.content? fn = p.content? fn := by
  unfold Program.reparent at h
  repeat' split at h
  all_goals cases h
  all_goals exact Program.content?_moveTo ..

theorem content?_forM {phase : Phase} {detail : String} {id : FuncId} {children : List FuncId}
    (h : (children.forM fun c => Lowering.reparent phase detail c id) w = .ok () w') (fn : FuncId) :
    w'.program.content? fn = w.program.content? fn := by
  induction children generalizing w with
  | nil =>
      cases h
      rfl
  | cons c rest ih =>
      obtain ⟨_, w₁, hfirst, hrest⟩ := bind_eq_ok.1 h
      change Lowering.reparent phase detail c id w = _ at hfirst
      unfold Lowering.reparent at hfirst
      split at hfirst
      · next hq =>
          cases hfirst
          exact (ih hrest).trans (content?_reparent hq fn)
      · cases hfirst

/-- Finishing a continuation sets its body and nothing else. -/
theorem content?_finish {id : FuncId} {body : List Stmt} {u : Unit}
    (h : finish id body w = .ok u w') (fn : FuncId) :
    w'.program.content? fn = if fn = id then
      (w.program.content? fn).map fun c => { c with body } else w.program.content? fn := by
  unfold finish at h
  obtain ⟨_, w₁, hadopt, ⟨⟩⟩ := bind_eq_ok.1 h
  simp only [Lowering.adoptBody, bind_eq_ok, pure_eq_ok] at hadopt
  obtain ⟨_, w₂, ⟨⟩, _, w₃, hmove, -, rfl⟩ := hadopt
  rw [content?_forM hmove]
  exact Program.content?_modifyFunc (fun c => { c with body }) (fun _ => rfl) ..

/-- Sharing a continuation declares the locals that hold it. -/
theorem content?_share {id : FuncId} {k shared : Option Expr} {prologue : List Stmt}
    (h : share id k w = .ok (prologue, shared) w') :
    ∃ locals, Shares k locals prologue shared ∧
      (∀ v ∈ locals, w.program.varCount ≤ v.id ∧ v.id < w'.program.varCount) ∧
      (∀ fn, w'.program.content? fn = if fn = id then
        (w.program.content? fn).map fun c => { c with locals := c.locals ++ locals }
        else w.program.content? fn) ∧
      w'.program.size = w.program.size ∧ w.program.varCount ≤ w'.program.varCount ∧
      w'.continuations = w.continuations := by
  unfold share at h
  split at h
  · next fn t =>
      obtain ⟨v, w₁, hlocal, ⟨⟩⟩ := bind_eq_ok.1 h
      rw [Lowering.freshLocal_eq] at hlocal
      cases hlocal
      refine ⟨[Lowering.drawn w t], .lambda fn t _, ?_, fun fn => ?_, Program.modifyFunc_size .., ?_,
        rfl⟩
      · intro v hv
        rw [List.mem_singleton.1 hv, Program.modifyFunc_varCount]
        exact ⟨Nat.le_refl _, Nat.lt_succ_self _⟩
      · exact Program.content?_modifyFunc
          (fun c => { c with locals := c.locals ++ [Lowering.drawn w t] }) (fun _ => rfl) ..
      · rw [Program.modifyFunc_varCount]
        exact Nat.le_succ _
  · next hk =>
      cases h
      exact ⟨[], .same hk, by simp, fun fn => by simp, rfl, Nat.le_refl _, rfl⟩

/-- The literal of a function shows its result and its parameters. -/
theorem lambda_of_content? {p : Program} {id : FuncId} {c : Content} (h : p.content? id = some c) :
    p.lambda id = .lambda id (.function c.result (c.params.map (·.type))) := by
  obtain ⟨f, hf, rfl⟩ := Option.map_eq_some_iff.1 h
  unfold Program.lambda
  rw [hf]
  rfl

/-- Making a continuation adds a station. -/
theorem adds_make {q : Variable} {body c : Expr} (operand : Expr)
    (h : make owner q body w = .ok c w') (hq : low ≤ q.id ∧ q.id < w.program.varCount) :
    ∃ s : Station, s.operand = operand ∧ s.param = q ∧ s.locals = [] ∧ s.prologue = [] ∧
      s.returned = body ∧ c = s.literal ∧ Adds low w w' [s] := by
  unfold make at h
  obtain ⟨id, w₁, hbegin, h⟩ := bind_eq_ok.1 h
  obtain ⟨u, w₂, hfinish, hlambda⟩ := bind_eq_ok.1 h
  obtain ⟨rfl, hw₁⟩ := begin_spec hbegin
  obtain ⟨-, hsize, hvars, -, -, hcount⟩ := finish_spec hfinish
  have hsize₁ : w₁.program.size = w.program.size + 1 := by
    rw [hw₁, Program.newFunc_size]
  have hvars₁ : w₁.program.varCount = w.program.varCount := by
    rw [hw₁, Program.newFunc_varCount]
  let s : Station := ⟨w.program.size + 1, operand, q, [], [], body⟩
  have hnew : w₂.program.content? s.id = some s.content := by
    rw [content?_finish hfinish, if_pos rfl, content?_begin hbegin, if_pos rfl]
    rfl
  cases hlambda
  refine ⟨s, rfl, rfl, rfl, rfl, rfl, lambda_of_content? hnew, ?_⟩
  refine ⟨hsize.trans hsize₁, .refl _, fun fn hfn => ?_, ?_, ?_, ?_, ?_⟩
  · have hne : fn ≠ w.program.size + 1 := Nat.ne_of_lt (Nat.lt_succ_of_le hfn)
    rw [content?_finish hfinish, if_neg hne, content?_begin hbegin, if_neg hne]
  · intro s' hs'
    rw [List.mem_singleton.1 hs']
    exact hnew
  · exact Nat.le_of_eq (hvars.trans hvars₁).symm
  · intro s' hs' v hv
    rw [List.mem_singleton.1 hs'] at hv
    rw [List.mem_singleton.1 hv, hvars, hvars₁]
    exact hq
  · rw [hcount]
    cases hbegin
    rfl

/-- A continuation that is begun becomes a station when it is finished. In
between, the functions it needs are added. -/
theorem adds_choice {q : Variable} {k shared : Option Expr} {prologue : List Stmt} {result : Ty}
    {a b f : Expr} {id : FuncId} {u : Unit} {w₂ w₃ w₄ : Workspace} (operand : Expr)
    (hbegin : begin owner q result w = .ok id w₁) (hshare : share id k w₁ = .ok (prologue, shared) w₂)
    (hadds : Adds low w₂ w₃ made)
    (hfinish : finish id (prologue ++ [.ret (.conditional (.ref q) a b result.orVoid)]) w₃ = .ok u w₄)
    (hlambda : Lowering.lambda id w₄ = .ok f w')
    (hq : low ≤ q.id ∧ q.id < w.program.varCount) :
    ∃ s : Station, s.operand = operand ∧ s.param = q ∧ Shares k s.locals s.prologue shared ∧
      s.returned = .conditional (.ref q) a b result.orVoid ∧ f = s.literal ∧
      Adds low w w' (s :: made) := by
  obtain ⟨rfl, hw₁⟩ := begin_spec hbegin
  obtain ⟨locals, hshares, hlocals, hcontent₂, hsize₂, hvars₂, hcount₂⟩ := content?_share hshare
  obtain ⟨-, hsize, hvars, -, -, hcount⟩ := finish_spec hfinish
  have hsize₁ : w₁.program.size = w.program.size + 1 := by
    rw [hw₁, Program.newFunc_size]
  have hvars₁ : w₁.program.varCount = w.program.varCount := by
    rw [hw₁, Program.newFunc_varCount]
  let s : Station := ⟨w.program.size + 1, operand, q, locals, prologue,
    .conditional (.ref q) a b result.orVoid⟩
  have hnew : w₄.program.content? s.id = some s.content := by
    have hle : s.id ≤ w₂.program.size := Nat.le_of_eq (hsize₂.trans hsize₁).symm
    rw [content?_finish hfinish, if_pos rfl, hadds.old _ hle, hcontent₂, if_pos rfl,
      content?_begin hbegin, if_pos rfl]
    change some _ = some (Content.mk _ result.orVoid.orVoid false)
    rw [Ty.orVoid_orVoid]
    rfl
  have hother (fn : FuncId) (hne : fn ≠ w.program.size + 1) :
      w₄.program.content? fn = w₃.program.content? fn := by
    rw [content?_finish hfinish, if_neg hne]
  cases hlambda
  refine ⟨s, rfl, rfl, hshares, rfl, lambda_of_content? hnew, ?_⟩
  refine ⟨?_, ?_, fun fn hfn => ?_, ?_, ?_, ?_, ?_⟩
  · rw [hsize, hadds.size, hsize₂, hsize₁, List.length_cons]
    omega
  · have hids := hadds.ids
    rw [hsize₂, hsize₁] at hids
    rw [List.map_cons, List.length_cons, List.range'_succ]
    exact hids.cons _
  · have hne : fn ≠ w.program.size + 1 := Nat.ne_of_lt (Nat.lt_succ_of_le hfn)
    have hle : fn ≤ w₂.program.size := by
      rw [hsize₂, hsize₁]
      exact Nat.le_succ_of_le hfn
    rw [hother fn hne, hadds.old fn hle, hcontent₂, if_neg hne, content?_begin hbegin, if_neg hne]
  · refine List.forall_mem_cons.2 ⟨hnew, fun s' hs' => ?_⟩
    have hlt := (hadds.bounds hs').1
    rw [hsize₂, hsize₁] at hlt
    rw [hother s'.id (Nat.ne_of_gt hlt)]
    exact hadds.new s' hs'
  · rw [hvars, ← hvars₁]
    exact Nat.le_trans hvars₂ hadds.varCount
  · rw [hvars]
    refine List.forall_mem_cons.2 ⟨List.forall_mem_cons.2 ⟨?_, fun v hv => ?_⟩, hadds.drawn⟩
    · refine ⟨hq.1, Nat.lt_of_lt_of_le hq.2 ?_⟩
      rw [← hvars₁]
      exact Nat.le_trans hvars₂ hadds.varCount
    · obtain ⟨hle, hlt⟩ := hlocals v hv
      rw [hvars₁] at hle
      exact ⟨Nat.le_trans hq.1 (Nat.le_trans (Nat.le_of_lt hq.2) hle),
        Nat.lt_of_lt_of_le hlt hadds.varCount⟩
  · have hbegun : w₁.continuations = w.continuations + 1 := by
      cases hbegin
      rfl
    rw [hcount, hadds.continuations, hcount₂, hbegun, List.length_cons]
    omega

/-! ## Conversions -/

def Assembled (owner : FuncId) (e : Expr) : Prop :=
  ∀ {k w e' w'}, convert owner e k w = .ok e' w' →
    ∃ made, Assembles (.expr e k) e' made ∧ Adds w.program.varCount w w' made

/-- Operands go to stations that are made for them, the last one first. -/
theorem assembled_row {es : List Expr} (hes : ∀ e ∈ es, Assembled owner e) {qs : List Variable}
    {inner e' : Expr} (htypes : List.Forall₂ (fun e q => q.type = e.type) es qs)
    (hbounds : ∀ q ∈ qs, low ≤ q.id ∧ q.id < w.program.varCount)
    (h : convertArgs owner es qs inner w = .ok e' w') :
    ∃ made, Assembles (.row es qs inner) e' made ∧ Adds low w w' made := by
  induction htypes generalizing e' w' with
  | nil =>
      simp only [convertArgs] at h
      cases h
      exact ⟨[], .done _, .refl _ _⟩
  | @cons x q es qs htype htypes ih =>
      simp only [convertArgs] at h
      obtain ⟨rest, w₁, hrest, h⟩ := bind_eq_ok.1 h
      obtain ⟨c, w₂, hmake, hconvert⟩ := bind_eq_ok.1 h
      obtain ⟨hx, hes⟩ := List.forall_mem_cons.1 hes
      obtain ⟨hq, hqs⟩ := List.forall_mem_cons.1 hbounds
      obtain ⟨made, hrow, hadds⟩ := ih hes hqs hrest
      have hq₁ : low ≤ q.id ∧ q.id < w₁.program.varCount :=
        ⟨hq.1, Nat.lt_of_lt_of_le hq.2 hadds.varCount⟩
      obtain ⟨s, hoperand, rfl, hlocals, hprologue, rfl, rfl, hmade⟩ := adds_make x hmake hq₁
      obtain ⟨made', hassembles, hadds'⟩ := hx hconvert
      refine ⟨made ++ [s] ++ made', .next hrow hlocals hprologue hoperand htype hassembles, ?_⟩
      refine (hadds.trans hmade).trans (hadds'.mono ?_)
      exact Nat.le_trans (Nat.le_trans hq₁.1 (Nat.le_of_lt hq₁.2)) hmade.varCount

theorem assembled_operates {e e' : Expr} {k : Option Expr} {task : Task} {es : List Expr}
    (hop : Operates e task es) (hes : ∀ x ∈ es, Assembled owner x)
    (h : (do
      let qs ← parameters es
      convertArgs owner es qs (deliver k (rebuilt e qs))) w = .ok e' w') :
    ∃ made, Assembles (.expr e k) e' made ∧ Adds w.program.varCount w w' made := by
  obtain ⟨qs, w₁, hqs, h⟩ := bind_eq_ok.1 h
  obtain ⟨htypes, hids, hw₁, hcount⟩ := parameters_spec hqs
  have hbounds : ∀ v ∈ qs, w.program.varCount ≤ v.id ∧ v.id < w₁.program.varCount := by
    rw [hw₁]
    exact (bounds_of_range' hids).1
  obtain ⟨made, hrow, hadds⟩ := assembled_row hes htypes hbounds h
  obtain ⟨hrefs, htype, -⟩ := hop.rebuilt htypes.length_eq.symm
  exact ⟨made, .operates k hop hrefs htype hrow,
    (adds_of_varCount (Nat.le_add_right ..) hw₁ hcount).trans hadds⟩

theorem assembled_way {o : Option Expr} (ho : ∀ y ∈ o, Assembled owner y) {q : Variable}
    {shared : Option Expr} {e' : Expr} (h : convertWay owner q shared o w = .ok e' w') :
    ∃ made, Assembles (.expr (o.getD (.ref q)) shared) e' made ∧ Adds w.program.varCount w w' made := by
  cases o with
  | none =>
      cases h
      exact ⟨[], .whole shared (.ref q), .refl _ _⟩
  | some y => exact ho y rfl h

theorem resultType_eq {id : FuncId} {t : Ty} {c : Content} (h : resultType id w = .ok t w')
    (hc : w.program.content? id = some c) : t = c.result := by
  obtain ⟨f, hf, rfl⟩ := Option.map_eq_some_iff.1 hc
  cases h
  rw [hf]
  rfl

theorem assembled_ways {yes no : Option Expr} (hyes : ∀ y ∈ yes, Assembled owner y)
    (hno : ∀ y ∈ no, Assembled owner y) {id : FuncId} {q : Variable} {shared : Option Expr}
    {choice : Expr} {content : Content} (h : convertWays owner yes no id q shared w = .ok choice w')
    (hcontent : w.program.content? id = some content) :
    ∃ a b made made', choice = .conditional (.ref q) a b content.result ∧
      Assembles (.expr (yes.getD (.ref q)) shared) a made ∧
      Assembles (.expr (no.getD (.ref q)) shared) b made' ∧
      Adds w.program.varCount w w' (made ++ made') := by
  obtain ⟨a, w₁, ha, h⟩ := bind_eq_ok.1 h
  obtain ⟨b, w₂, hb, h⟩ := bind_eq_ok.1 h
  obtain ⟨result, w₃, hresult, ⟨⟩⟩ := bind_eq_ok.1 h
  obtain ⟨made, hassembles, hadds⟩ := assembled_way hyes ha
  obtain ⟨made', hassembles', hadds'⟩ := assembled_way hno hb
  have hall := hadds.trans (hadds'.mono hadds.varCount)
  obtain rfl := resultType_eq hresult ((hall.known hcontent).trans hcontent)
  obtain rfl := resultType_spec hresult
  exact ⟨a, b, made, made', rfl, hassembles, hassembles', hall⟩

/-- A station that goes one of two ways, which share the continuation of the
whole. -/
theorem assembled_choice {e c e' : Expr} {k : Option Expr} {task : Task} {yes no : Option Expr}
    (hchoice : Chooses e task c yes no) (hc : Assembled owner c)
    (hyes : ∀ y ∈ yes, Assembled owner y) (hno : ∀ y ∈ no, Assembled owner y)
    (h : convertChoice owner c k (resultOf k e.type) (convertWays owner yes no) w = .ok e' w') :
    ∃ made, Assembles (.expr e k) e' made ∧ Adds w.program.varCount w w' made := by
  obtain ⟨q, w₁, hq, h⟩ := bind_eq_ok.1 h
  obtain ⟨id, w₂, hbegin, h⟩ := bind_eq_ok.1 h
  obtain ⟨⟨prologue, shared⟩, w₃, hshare, h⟩ := bind_eq_ok.1 h
  obtain ⟨choice, w₄, hchosen, h⟩ := bind_eq_ok.1 h
  obtain ⟨u, w₅, hfinish, h⟩ := bind_eq_ok.1 h
  obtain ⟨f, w₆, hlambda, hconvert⟩ := bind_eq_ok.1 h
  obtain ⟨hq₁, htype, hw₁, -⟩ := freshVariable_spec hq
  obtain ⟨rfl, -⟩ := begin_spec hbegin
  have hbounds : w.program.varCount ≤ q.id ∧ q.id < w₁.program.varCount := by
    rw [hq₁, hw₁]
    exact ⟨Nat.le_refl _, Nat.lt_succ_self _⟩
  obtain ⟨locals, -, -, hcontent, -, hvars₃, -⟩ := content?_share hshare
  have hbegun : w₃.program.content? (w₁.program.size + 1) =
      some ⟨⟨"", [q], locals, []⟩, (resultOf k e.type).orVoid, false⟩ := by
    rw [hcontent, if_pos rfl, content?_begin hbegin, if_pos rfl]
    rfl
  obtain ⟨a, b, made, made', rfl, hyes, hno, hadds⟩ :=
    assembled_ways hyes hno hchosen hbegun
  have hlow : w.program.varCount ≤ w₃.program.varCount :=
    Nat.le_trans ((grown_freshVariable hq).trans (grown_begin hbegin)).varCount hvars₃
  obtain ⟨s, rfl, rfl, hshares, hreturned, rfl, hmade⟩ :=
    adds_choice c hbegin hshare (hadds.mono hlow) hfinish hlambda hbounds
  obtain ⟨made'', hassembles, hadds''⟩ := hc hconvert
  refine ⟨s :: (made ++ made') ++ made'', .chooses hchoice hshares rfl htype hyes
    hno hreturned hassembles, ?_⟩
  refine ((adds_freshVariable hq).trans hmade).trans (hadds''.mono ?_)
  exact Nat.le_trans (grown_freshVariable hq).varCount hmade.varCount

/-- Every conversion that succeeds adds the stations of its job and no other
function. -/
theorem assembled (owner : FuncId) (e : Expr) : Assembled owner e := by
  induction e using Expr.children_induction with
  | h e ih =>
      intro k w e' w' h
      cases treated owner e with
      | refused _ heq =>
          rw [heq] at h
          cases h
      | whole he heq =>
          rw [heq] at h
          cases h
          exact ⟨[], .whole k he, .refl _ _⟩
      | operates hop _ heq =>
          rw [heq] at h
          exact assembled_operates hop (fun x hx => ih x (hop.mem_children hx)) h
      | chooses hchoice heq =>
          rw [heq] at h
          obtain ⟨hx, hyes, hno⟩ := hchoice.mem_children
          exact assembled_choice hchoice (ih _ hx) (fun y hy => ih y (hyes y hy))
            (fun y hy => ih y (hno y hy)) h

end

end Continuation

end Resumable
