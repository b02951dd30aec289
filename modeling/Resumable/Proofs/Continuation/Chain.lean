import Mathlib.Data.List.Forall2
import Resumable.Machine.State
import Resumable.Proofs.Continuation.Upkeep
import Resumable.Proofs.Lowering.Effect

/-!
# Chains of continuations

What a conversion makes of an expression, read off the finished program: its
first operand is evaluated and handed to a function that holds the value in its
parameter and goes on with the next operand, and so on until the operation
itself. Where an expression goes one of two ways, both ways hand their value to
the same continuation, which a local holds if it is a literal.

Every function of a chain holds variables of its own, drawn after those of the
functions around it. A lower bound on the numbers of the variables drawn for an
expression keeps them apart.
-/

namespace Resumable.Continuation

/-! ## Chains -/

/-- How two ways share a continuation: the locals that hold it, the statements
that set them, and the continuation of the ways. -/
inductive Shares : Option Expr → List Variable → List Stmt → Option Expr → Prop where
  | lambda (fn : FuncId) (t : Ty) (s : Variable) :
      Shares (some (.lambda fn t)) [s] [.setVar s (.lambda fn t)] (some (.ref s))
  | same {k : Option Expr} : (∀ fn t, k ≠ some (.lambda fn t)) → Shares k [] [] k

mutual

/-- In a program, the second expression is the first one rebuilt so that its
value goes to a continuation. Variables drawn for it have numbers from `n` on. -/
inductive Passes (p : Program) : Nat → Expr → Option Expr → Expr → Prop where
  | whole {n : Nat} {e : Expr} (k : Option Expr) : Whole e → Passes p n e k (deliver k e)
  | operates {n m : Nat} {e f e' : Expr} {task : Task} {x : Expr} {es : List Expr} {q : Variable}
      {qs : List Variable} (k : Option Expr) : Operates e task (x :: es) →
      Operates f task ((q :: qs).map .ref) → (∀ v ∈ q :: qs, n ≤ v.id ∧ v.id < m) →
      ((q :: qs).map Variable.id).Nodup → Row p m (x :: es) (q :: qs) (deliver k f) e' →
      Passes p n e k e'
  | chooses {n m m' : Nat} {e x e' : Expr} {task : Task} {yes no : Option Expr} {q : Variable}
      {locals : List Variable} {prologue : List Stmt} {k shared : Option Expr} {a b : Expr}
      {c : FuncId} (result t : Ty) : Chooses e task x yes no → Shares k locals prologue shared →
      (∀ v ∈ q :: locals, n ≤ v.id ∧ v.id < m) → ((q :: locals).map Variable.id).Nodup →
      Way p m q shared yes a → Way p m q shared no b →
      p.code? c = some ⟨"", [q], locals, prologue ++ [.ret (.conditional (.ref q) a b result)]⟩ →
      m ≤ m' → Passes p m' x (some (.lambda c t)) e' → Passes p n e k e'

/-- Operands are evaluated one after the other into variables, and then an
expression. -/
inductive Row (p : Program) : Nat → List Expr → List Variable → Expr → Expr → Prop where
  | nil {m : Nat} (inner : Expr) : Row p m [] [] inner inner
  | cons {m m' : Nat} {e e' rest inner : Expr} {es : List Expr} {q : Variable}
      {qs : List Variable} {c : FuncId} (t : Ty) : Row p m es qs inner rest →
      p.code? c = some ⟨"", [q], [], [.ret rest]⟩ → m ≤ m' →
      Passes p m' e (some (.lambda c t)) e' → Row p m (e :: es) (q :: qs) inner e'

inductive Way (p : Program) : Nat → Variable → Option Expr → Option Expr → Expr → Prop where
  | stay {m : Nat} (q : Variable) (k : Option Expr) : Way p m q k none (deliver k (.ref q))
  | go {m m' : Nat} (q : Variable) {k : Option Expr} {y y' : Expr} : m ≤ m' →
      Passes p m' y k y' → Way p m q k (some y) y'

end

theorem Passes.source_isMissing {p : Program} {n : Nat} {e e' : Expr} {k : Option Expr}
    (h : Passes p n e k e') : e.isMissing = false := by
  cases h with
  | whole _ h => exact h.isMissing
  | operates _ h => exact h.isMissing
  | chooses _ _ h => cases h <;> rfl

/-- A rebuilt expression is there. -/
theorem Passes.isMissing {p : Program} {n : Nat} {e e' : Expr} {k : Option Expr}
    (h : Passes p n e k e') : e'.isMissing = false := by
  refine @Passes.rec p (fun _ _ _ e' _ => e'.isMissing = false)
    (fun _ _ _ inner e' _ => inner.isMissing = false → e'.isMissing = false)
    (fun _ _ _ _ _ _ => True) ?_ ?_ ?_ ?_ ?_ ?_ ?_ n e k e' h
  · intro _ _ _ he
    exact deliver_isMissing he.isMissing
  · intro _ _ _ _ _ _ _ _ _ _ _ _ hf _ _ _ ih
    exact ih (deliver_isMissing hf.isMissing)
  · intros
    assumption
  · intro _ inner h
    exact h
  · intros
    assumption
  · intros
    trivial
  · intros
    trivial

theorem Row.isMissing {p : Program} {m : Nat} {es : List Expr} {qs : List Variable}
    {inner e' : Expr} (h : Row p m es qs inner e') (hinner : inner.isMissing = false) :
    e'.isMissing = false := by
  cases h with
  | nil => exact hinner
  | cons _ _ _ _ hpasses => exact hpasses.isMissing

/-! ## Work that makes continuations -/

/-- A program grows: functions and variables are added, and the functions there
keep their code. -/
structure Grown (p q : Program) : Prop where
  size : p.size ≤ q.size
  varCount : p.varCount ≤ q.varCount
  code : ∀ fn, fn ≤ p.size → q.code? fn = p.code? fn
  types : q.types = p.types
  shareCount : q.shareCount = p.shareCount

namespace Grown

protected theorem refl (p : Program) : Grown p p :=
  ⟨Nat.le_refl _, Nat.le_refl _, fun _ _ => rfl, rfl, rfl⟩

protected theorem trans {p q r : Program} (first : Grown p q) (second : Grown q r) : Grown p r where
  size := Nat.le_trans first.size second.size
  varCount := Nat.le_trans first.varCount second.varCount
  code fn hfn := (second.code fn (Nat.le_trans hfn first.size)).trans (first.code fn hfn)
  types := second.types.trans first.types
  shareCount := second.shareCount.trans first.shareCount

end Grown

/-- The functions made between two moments have the code of the second moment in
a third program. -/
def Keeps (p q r : Program) : Prop :=
  ∀ fn, p.size < fn → fn ≤ q.size → r.code? fn = q.code? fn

section

variable {owner : FuncId} {w w' : Workspace}

theorem freshVariable_spec {type : Ty} {v : Variable}
    (h : Lowering.freshVariable type w = .ok v w') :
    v.id = w.program.varCount ∧ v.type = type ∧
      w'.program = { w.program with varCount := w.program.varCount + 1 } ∧
      w'.continuations = w.continuations := by
  cases h
  exact ⟨rfl, rfl, rfl, rfl⟩

theorem grown_freshVariable {type : Ty} {v : Variable}
    (h : Lowering.freshVariable type w = .ok v w') : Grown w.program w'.program := by
  rw [(freshVariable_spec h).2.2.1]
  exact ⟨Nat.le_refl _, Nat.le_succ _, fun _ _ => rfl, rfl, rfl⟩

theorem begin_spec {q : Variable} {result : Ty} {id : FuncId} (h : begin owner q result w = .ok id w') :
    id = w.program.size + 1 ∧ w'.program = (w.program.newFunc owner "" [q] result).2 := by
  cases h
  exact ⟨rfl, rfl⟩

theorem grown_begin {q : Variable} {result : Ty} {id : FuncId}
    (h : begin owner q result w = .ok id w') : Grown w.program w'.program := by
  rw [(begin_spec h).2]
  refine ⟨?_, Nat.le_of_eq (Program.newFunc_varCount ..).symm, fun fn hfn => ?_,
    Program.newFunc_types .., Program.newFunc_shareCount ..⟩
  · rw [Program.newFunc_size]
    omega
  · rw [Program.code?_newFunc, if_neg (Nat.ne_of_lt (Nat.lt_succ_of_le hfn))]

/-- Finishing a continuation sets its body. -/
theorem finish_spec {id : FuncId} {body : List Stmt} {u : Unit} (h : finish id body w = .ok u w') :
    (∀ fn, w'.program.code? fn =
      if fn = id then (w.program.code? fn).map fun c => { c with body } else w.program.code? fn) ∧
    w'.program.size = w.program.size ∧ w'.program.varCount = w.program.varCount ∧
    w'.program.types = w.program.types ∧ w'.program.shareCount = w.program.shareCount ∧
    w'.continuations = w.continuations := by
  unfold finish at h
  obtain ⟨_, w₁, hadopt, ⟨⟩⟩ := bind_eq_ok.1 h
  obtain ⟨hkeeps, -, -, hcontinuations⟩ := Lowering.keeps_of_adoptBody hadopt
  refine ⟨fun fn => ?_, hkeeps.size.trans (Program.modifyFunc_size ..),
    hkeeps.varCount.trans (Program.modifyFunc_varCount ..),
    hkeeps.types.trans (Program.modifyFunc_types ..),
    hkeeps.shareCount.trans (Program.modifyFunc_shareCount ..), hcontinuations⟩
  rw [hkeeps.code]
  exact Program.code?_setBody ..

theorem lambda_spec {id : FuncId} {e : Expr} (h : Lowering.lambda id w = .ok e w') :
    (∃ t, e = .lambda id t) ∧ w' = w := by
  cases h
  refine ⟨?_, rfl⟩
  unfold Program.lambda
  split
  · exact ⟨_, rfl⟩
  · exact ⟨_, rfl⟩

/-- A continuation is a new function that returns its body. -/
theorem make_spec {q : Variable} {body c : Expr} (h : make owner q body w = .ok c w') :
    (∃ t, c = .lambda (w.program.size + 1) t) ∧ Grown w.program w'.program ∧
    w'.program.size = w.program.size + 1 ∧
    w'.program.code? (w.program.size + 1) = some ⟨"", [q], [], [.ret body]⟩ := by
  unfold make at h
  obtain ⟨id, w₁, hbegin, h⟩ := bind_eq_ok.1 h
  obtain ⟨u, w₂, hfinish, hlambda⟩ := bind_eq_ok.1 h
  obtain ⟨hc, rfl⟩ := lambda_spec hlambda
  obtain ⟨rfl, hw₁⟩ := begin_spec hbegin
  obtain ⟨hcode, hsize, hvars, htypes, hshares, -⟩ := finish_spec hfinish
  have hgrown := grown_begin hbegin
  have hlast : w₁.program.size = w.program.size + 1 := by rw [hw₁, Program.newFunc_size]
  refine ⟨hc, ⟨hsize ▸ hgrown.size, hvars ▸ hgrown.varCount, fun fn hfn => ?_,
    htypes.trans hgrown.types, hshares.trans hgrown.shareCount⟩, hsize.trans hlast, ?_⟩
  · rw [hcode, if_neg (Nat.ne_of_lt (Nat.lt_succ_of_le hfn))]
    exact hgrown.code fn hfn
  · rw [hcode, if_pos rfl, hw₁, Program.code?_newFunc, if_pos rfl]
    rfl

/-- Sharing a continuation declares a local if it is a literal. -/
theorem share_spec {id : FuncId} {k shared : Option Expr} {prologue : List Stmt}
    (h : share id k w = .ok (prologue, shared) w') :
    ∃ locals, Shares k locals prologue shared ∧
      locals.map Variable.id = List.range' w.program.varCount locals.length ∧
      w'.program.varCount = w.program.varCount + locals.length ∧
      (∀ fn, w'.program.code? fn = if fn = id then
        (w.program.code? fn).map fun c => { c with locals := c.locals ++ locals }
        else w.program.code? fn) ∧
      w'.program.size = w.program.size ∧ w'.program.types = w.program.types ∧
      w'.program.shareCount = w.program.shareCount := by
  unfold share at h
  split at h
  · next fn t =>
      obtain ⟨s, w₁, hlocal, ⟨⟩⟩ := bind_eq_ok.1 h
      rw [Lowering.freshLocal_eq] at hlocal
      cases hlocal
      exact ⟨[_], .lambda fn t _, rfl, Program.modifyFunc_varCount .., fun fn =>
        Program.code?_addLocal .., Program.modifyFunc_size .., Program.modifyFunc_types ..,
        Program.modifyFunc_shareCount ..⟩
  · next hk =>
      cases h
      exact ⟨[], .same hk, rfl, rfl, fun fn => by simp, rfl, rfl, rfl⟩

/-- Parameters are variables in a row with the types of the operands. -/
theorem parameters_spec {es : List Expr} {qs : List Variable}
    (h : parameters es w = .ok qs w') :
    List.Forall₂ (fun e q => q.type = e.type) es qs ∧
      qs.map Variable.id = List.range' w.program.varCount es.length ∧
      w'.program = { w.program with varCount := w.program.varCount + es.length } ∧
      w'.continuations = w.continuations := by
  induction es generalizing w qs with
  | nil =>
      cases h
      exact ⟨.nil, rfl, rfl, rfl⟩
  | cons e es ih =>
      unfold parameters at h
      obtain ⟨v, w₁, hv, h⟩ := bind_eq_ok.1 h
      obtain ⟨vs, w₂, hvs, ⟨⟩⟩ := bind_eq_ok.1 h
      obtain ⟨hid, htype, hw₁, hcount⟩ := freshVariable_spec hv
      obtain ⟨htypes, hids, hw₂, hcounts⟩ := ih hvs
      rw [hw₁] at hids hw₂
      refine ⟨.cons htype htypes, ?_, ?_, hcounts.trans hcount⟩
      · rw [List.map_cons, hid, hids, List.length_cons, List.range'_succ]
      · rw [hw₂, List.length_cons]
        simp only [Nat.add_comm, Nat.add_left_comm]

/-! ## Conversions -/

def Chained (owner : FuncId) (e : Expr) : Prop :=
  ∀ {k w e' w'}, convert owner e k w = .ok e' w' → Grown w.program w'.program ∧
    ∀ p, Keeps w.program w'.program p → Passes p w.program.varCount e k e'

theorem Keeps.right {p q r s : Program} (h : Keeps p r s) (hgrown : Grown p q) : Keeps q r s :=
  fun fn hlt hle => h fn (Nat.lt_of_le_of_lt hgrown.size hlt) hle

theorem Keeps.left {p q r s : Program} (h : Keeps p r s) (hgrown : Grown q r) : Keeps p q s :=
  fun fn hlt hle => (h fn hlt (Nat.le_trans hle hgrown.size)).trans (hgrown.code fn hle)

/-- Variables whose numbers follow each other. -/
theorem bounds_of_range' {vs : List Variable} {n len : Nat}
    (h : vs.map Variable.id = List.range' n len) :
    (∀ v ∈ vs, n ≤ v.id ∧ v.id < n + len) ∧ (vs.map Variable.id).Nodup := by
  constructor
  · intro v hv
    have hid : v.id ∈ List.range' n len := h ▸ List.mem_map_of_mem hv
    exact List.mem_range'_1.1 hid
  · rw [h]
    exact List.nodup_range'

/-- Operands go to continuations that are made for them, the last one first. -/
theorem chained_row {es : List Expr} (hes : ∀ e ∈ es, Chained owner e) {qs : List Variable}
    {inner e' : Expr} (hlength : qs.length = es.length)
    (h : convertArgs owner es qs inner w = .ok e' w') :
    Grown w.program w'.program ∧
      ∀ p, Keeps w.program w'.program p → Row p w.program.varCount es qs inner e' := by
  induction es generalizing qs e' w' with
  | nil =>
      cases List.length_eq_zero_iff.1 hlength
      simp only [convertArgs] at h
      cases h
      exact ⟨.refl _, fun p _ => .nil _⟩
  | cons e es ih =>
      cases qs with
      | nil => cases hlength
      | cons q qs =>
          simp only [convertArgs] at h
          obtain ⟨rest, w₁, hrest, h⟩ := bind_eq_ok.1 h
          obtain ⟨c, w₂, hmake, hconvert⟩ := bind_eq_ok.1 h
          obtain ⟨he, hes⟩ := List.forall_mem_cons.1 hes
          obtain ⟨hw, hrow⟩ := ih hes (Nat.succ.inj hlength) hrest
          obtain ⟨⟨t, rfl⟩, hgrown, hsize, hcode⟩ := make_spec hmake
          obtain ⟨hgrown', hpasses⟩ := he hconvert
          have hall := (hw.trans hgrown).trans hgrown'
          refine ⟨hall, fun p hp => .cons t (hrow p (hp.left (hgrown.trans hgrown'))) ?_
            (hw.trans hgrown).varCount (hpasses p (hp.right (hw.trans hgrown)))⟩
          have hle := hw.size
          -- what is made after the continuation leaves its code alone
          rw [hp _ (by omega) (hsize ▸ hgrown'.size), hgrown'.code _ (Nat.le_of_eq hsize.symm),
            hcode]

theorem chained_operates {e e' : Expr} {k : Option Expr} {task : Task} {es : List Expr}
    (hop : Operates e task es) (hes : ∀ x ∈ es, Chained owner x)
    (h : (do
      let qs ← parameters es
      convertArgs owner es qs (deliver k (rebuilt e qs))) w = .ok e' w') :
    Grown w.program w'.program ∧
      ∀ p, Keeps w.program w'.program p → Passes p w.program.varCount e k e' := by
  obtain ⟨qs, w₁, hqs, h⟩ := bind_eq_ok.1 h
  obtain ⟨htypes, hids, hw₁, -⟩ := parameters_spec hqs
  have hlength := htypes.length_eq.symm
  obtain ⟨hbounds, hnodup⟩ := bounds_of_range' hids
  have hdrawn : Grown w.program w₁.program := by
    rw [hw₁]
    exact ⟨Nat.le_refl _, Nat.le_add_right .., fun _ _ => rfl, rfl, rfl⟩
  obtain ⟨hgrown, hrow⟩ := chained_row hes hlength h
  obtain ⟨x, rest, rfl⟩ := hop.exists_cons
  cases qs with
  | nil => cases hlength
  | cons q qs =>
      refine ⟨hdrawn.trans hgrown, fun p hp => .operates k hop (hop.rebuilt hlength).1 ?_ hnodup
        (hrow p (hp.right hdrawn))⟩
      rw [hw₁]
      exact hbounds

theorem chained_way {o : Option Expr} (ho : ∀ y ∈ o, Chained owner y) {q : Variable}
    {shared : Option Expr} {e' : Expr} (h : convertWay owner q shared o w = .ok e' w') :
    Grown w.program w'.program ∧
      ∀ p, Keeps w.program w'.program p → Way p w.program.varCount q shared o e' := by
  cases o with
  | none =>
      cases h
      exact ⟨.refl _, fun p _ => .stay q shared⟩
  | some y =>
      obtain ⟨hgrown, hpasses⟩ := ho y rfl h
      exact ⟨hgrown, fun p hp => .go q (Nat.le_refl _) (hpasses p hp)⟩

theorem resultType_spec {id : FuncId} {t : Ty} (h : resultType id w = .ok t w') : w = w' := by
  cases h
  rfl

theorem Way.mono {p : Program} {n m : Nat} {q : Variable} {k o : Option Expr} {e : Expr}
    (h : Way p m q k o e) (hle : n ≤ m) : Way p n q k o e := by
  cases h with
  | stay => exact .stay q k
  | go _ hm hpasses => exact .go q (Nat.le_trans hle hm) hpasses

theorem chained_ways {yes no : Option Expr} (hyes : ∀ y ∈ yes, Chained owner y)
    (hno : ∀ y ∈ no, Chained owner y) {id : FuncId} {q : Variable} {shared : Option Expr}
    {choice : Expr} (h : convertWays owner yes no id q shared w = .ok choice w') :
    Grown w.program w'.program ∧ ∃ a b t, choice = .conditional (.ref q) a b t ∧
      ∀ p, Keeps w.program w'.program p →
        Way p w.program.varCount q shared yes a ∧ Way p w.program.varCount q shared no b := by
  obtain ⟨a, w₁, ha, h⟩ := bind_eq_ok.1 h
  obtain ⟨b, w₂, hb, h⟩ := bind_eq_ok.1 h
  obtain ⟨result, w₃, hresult, ⟨⟩⟩ := bind_eq_ok.1 h
  obtain rfl := resultType_spec hresult
  obtain ⟨hgrown₁, hway₁⟩ := chained_way hyes ha
  obtain ⟨hgrown₂, hway₂⟩ := chained_way hno hb
  exact ⟨hgrown₁.trans hgrown₂, a, b, result, rfl, fun p hp => ⟨hway₁ p (hp.left hgrown₂),
    (hway₂ p (hp.right hgrown₁)).mono hgrown₁.varCount⟩⟩

/-- A continuation that goes one of two ways, which share the continuation of
the whole. -/
theorem chained_choice {e c e' : Expr} {k : Option Expr} {task : Task} {yes no : Option Expr}
    (hchoice : Chooses e task c yes no) (hc : Chained owner c) (hyes : ∀ y ∈ yes, Chained owner y)
    (hno : ∀ y ∈ no, Chained owner y) {result : Ty}
    (h : convertChoice owner c k result (convertWays owner yes no) w = .ok e' w') :
    Grown w.program w'.program ∧
      ∀ p, Keeps w.program w'.program p → Passes p w.program.varCount e k e' := by
  obtain ⟨q, w₁, hq, h⟩ := bind_eq_ok.1 h
  obtain ⟨id, w₂, hid, h⟩ := bind_eq_ok.1 h
  obtain ⟨⟨prologue, shared⟩, w₃, hshare, h⟩ := bind_eq_ok.1 h
  obtain ⟨choice, w₄, hchosen, h⟩ := bind_eq_ok.1 h
  obtain ⟨u, w₆, hfinish, h⟩ := bind_eq_ok.1 h
  obtain ⟨f, w₅, hlambda, hconvert⟩ := bind_eq_ok.1 h
  obtain ⟨⟨t, rfl⟩, rfl⟩ := lambda_spec hlambda
  obtain ⟨hq₁, -, hw₁, -⟩ := freshVariable_spec hq
  obtain ⟨rfl, hw₂⟩ := begin_spec hid
  obtain ⟨locals, hshares, hids, hcount, hcode₃, hsize₃, htypes₃, hshares₃⟩ := share_spec hshare
  obtain ⟨hgrown₄, a, b, ty, rfl, hways⟩ := chained_ways hyes hno hchosen
  obtain ⟨hcode₅, hsize₅, hvars₅, htypes₅, hshares₅, -⟩ := finish_spec hfinish
  obtain ⟨hgrown, hpasses⟩ := hc hconvert
  have hsize₁ : w₁.program.size = w.program.size := by rw [hw₁]; rfl
  have hsize₂ : w₂.program.size = w.program.size + 1 := by rw [hw₂, Program.newFunc_size, hsize₁]
  have hvars₂ : w₂.program.varCount = w.program.varCount + 1 := by
    rw [hw₂, Program.newFunc_varCount, hw₁]
  have hgrown₂ := (grown_freshVariable hq).trans (grown_begin hid)
  have hvars₃ : w₃.program.varCount = w.program.varCount + (q :: locals).length := by
    rw [hcount, hvars₂, List.length_cons]
    omega
  have hvars : (q :: locals).map Variable.id =
      List.range' w.program.varCount (q :: locals).length := by
    rw [List.map_cons, hq₁, hids, hvars₂, List.length_cons, List.range'_succ]
  obtain ⟨hbounds, hnodup⟩ := bounds_of_range' hvars
  -- the continuation itself is finished last, and the functions of the ways stand behind it
  have hown : w₅.program.code? (w.program.size + 1) = some ⟨"", [q], locals,
      prologue ++ [.ret (.conditional (.ref q) a b ty)]⟩ := by
    rw [hcode₅, hsize₁, if_pos rfl, hgrown₄.code _ (by omega), hcode₃, hsize₁, if_pos rfl, hw₂,
      Program.code?_newFunc, hsize₁, if_pos rfl]
    rfl
  have hothers (fn : FuncId) (hfn : fn ≠ w.program.size + 1) :
      w₅.program.code? fn = w₄.program.code? fn := by
    rw [hcode₅, hsize₁, if_neg hfn]
  have hgrown₅ : Grown w.program w₅.program := by
    refine ⟨?_, ?_, fun fn hfn => ?_, ?_, ?_⟩
    · have := hgrown₄.size
      omega
    · have := hgrown₄.varCount
      omega
    · have hne : fn ≠ w.program.size + 1 := Nat.ne_of_lt (Nat.lt_succ_of_le hfn)
      have hle : fn ≤ w₃.program.size := by
        rw [hsize₃, hsize₂]
        exact Nat.le_succ_of_le hfn
      rw [hothers fn hne, hgrown₄.code fn hle, hcode₃, hsize₁, if_neg hne]
      exact hgrown₂.code fn hfn
    · rw [htypes₅, hgrown₄.types, htypes₃, hgrown₂.types]
    · rw [hshares₅, hgrown₄.shareCount, hshares₃, hgrown₂.shareCount]
  refine ⟨hgrown₅.trans hgrown, fun p hp => ?_⟩
  have hkeeps : Keeps w₃.program w₄.program p := by
    intro fn hlt hle
    have hne : fn ≠ w.program.size + 1 := by
      rw [hsize₃, hsize₂] at hlt
      exact Nat.ne_of_gt hlt
    rw [hsize₃, hsize₂] at hlt
    rw [hp fn (Nat.lt_of_succ_lt hlt) (Nat.le_trans (hsize₅ ▸ hle) hgrown.size),
      hgrown.code fn (hsize₅ ▸ hle), hothers fn hne]
  obtain ⟨hyes, hno⟩ := hways p hkeeps
  have hcode : p.code? (w.program.size + 1) = some ⟨"", [q], locals,
      prologue ++ [.ret (.conditional (.ref q) a b ty)]⟩ := by
    have hle : w.program.size + 1 ≤ w₅.program.size := by
      have := hgrown₄.size
      omega
    rw [hp _ (Nat.lt_succ_self _) (Nat.le_trans hle hgrown.size), hgrown.code _ hle, hown]
  rw [hvars₃] at hyes hno
  rw [hsize₁] at hpasses
  refine .chooses ty t hchoice hshares hbounds hnodup hyes hno hcode ?_ (hpasses p (hp.right hgrown₅))
  have := hgrown₄.varCount
  omega

/-- Every conversion that succeeds makes a chain. -/
theorem chained (owner : FuncId) (e : Expr) : Chained owner e := by
  induction e using Expr.children_induction with
  | h e ih =>
      intro k w e' w' h
      cases treated owner e with
      | refused _ heq =>
          rw [heq] at h
          cases h
      | whole he heq =>
          rw [heq] at h
          cases h
          exact ⟨.refl _, fun p _ => .whole k he⟩
      | operates hop _ heq =>
          rw [heq] at h
          exact chained_operates hop (fun x hx => ih x (hop.mem_children hx)) h
      | chooses hchoice heq =>
          rw [heq] at h
          obtain ⟨hx, hyes, hno⟩ := hchoice.mem_children
          exact chained_choice hchoice (ih _ hx) (fun y hy => ih y (hyes y hy))
            (fun y hy => ih y (hno y hy)) h

end

end Resumable.Continuation
