import Resumable.Proofs.Jump.Settings
import Resumable.Proofs.Scope

/-!
# Functions without jumps

A function whose jumps are removed does what the jump machine does with its
code: fragments of blocks correspond to the code after their labels, and a call
of the function sets its label variables and goes on with the entry block.
-/

namespace Resumable

open Machine

def Elimination.sides (p p' : Program) (id : FuncId) (body : List Stmt) : Sides where
  source := p
  target := p'
  known fn := (p.func? fn).isSome
  free _ x := x < p.varCount
  loose fn := fn ∈ bodyClosures body
  special fn := fn = id
  common _ := True
  slot _ _ := False
  heard := True
  aside := .nothing

def Elimination.layout (p : Program) (id : FuncId) (body : List Stmt) (vars : LabelVars)
    (table : List (String × FuncId)) : Layout where
  id := id
  code := body
  vars := vars
  fragment l := (table.lookup l).getD noFunc
  bound := p.varCount

def Elimination.PlainBody (vars : LabelVars) (b : Block) (body : List Stmt) : Prop :=
  body = b.stmts.map (convertStmt vars)

/-! ## Blocks -/

section

variable {S : Sides} {L : Layout}

theorem armsTurn_of_covered {arms : List Arm} (htargets : ∀ arm ∈ arms, L.Has arm.target)
    (hvalues : ∀ arm ∈ arms, arm.value.Covered S L.Reads False) :
    ArmsTurn S L (arms.flatMap Arm.stmts) (arms.flatMap (Elimination.convertArm L.vars)) := by
  induction arms with
  | nil => exact .nil
  | cons arm rest ih =>
      obtain ⟨htarget, htargets⟩ := List.forall_mem_cons.1 htargets
      obtain ⟨hvalue, hvalues⟩ := List.forall_mem_cons.1 hvalues
      have hrest := ih htargets hvalues
      simp only [List.flatMap_cons, Arm.stmts, Elimination.convertArm]
      split
      · exact .default htarget hrest
      · exact .case hvalue htarget hrest

/-- A terminator with its jumps converted. -/
theorem turnsAt_last {s s' : Stmt} (hsame : s.unshare = s'.unshare) (hterm : s.isTerminator = true)
    (hcovered : ∀ e ∈ s.slots, e.Covered S L.Reads False) (htargets : ∀ l ∈ s'.targets, L.Has l)
    (rest rest' : List Stmt) :
    TurnsAt S L s rest (Elimination.convertStmt L.vars s') rest' := by
  obtain rfl | ⟨x, n, n', rfl, rfl⟩ := Stmt.same_cases hsame
  · cases s'
    case simple x share =>
        cases x
        case ret x => exact .ret share share rest rest' (hcovered x (.head _))
        case throw x => exact .throw share share rest rest' (hcovered x (.head _))
        all_goals cases hterm
    case goto l => exact .goto rest rest' (htargets l (.head _))
    case condGoto c t e =>
        exact .condGoto rest rest' (hcovered c (.head _)) (htargets t (.head _))
          (htargets e (.tail _ (.head _)))
    all_goals cases hterm
  · cases x
    case ret x => exact .ret n n' rest rest' (hcovered x (.head _))
    case throw x => exact .throw n n' rest rest' (hcovered x (.head _))
    all_goals cases hterm

/-- A statement that is no terminator with its jumps converted. -/
theorem turnsAt_next {s s' : Stmt} (hsame : s.unshare = s'.unshare)
    (hterm : s.isTerminator = false) (hshape : s'.isStructured = false)
    (hlabel : ∀ m, s' ≠ .label m)
    (hcovered : ∀ e ∈ s.slots, e.Covered S L.Reads False) (htargets : ∀ l ∈ s'.targets, L.Has l)
    {rest rest' : List Stmt} (hrest : Turns S L rest rest') :
    TurnsAt S L s rest (Elimination.convertStmt L.vars s') rest' := by
  obtain rfl | ⟨x, n, n', rfl, rfl⟩ := Stmt.same_cases hsame
  · cases s'
    case simple x share => exact .simple share share hterm (.refl hcovered) hrest
    case dispatch x arms =>
        refine .dispatch (hcovered x (.head _)) (armsTurn_of_covered (fun arm harm => ?_)
          fun arm harm => hcovered _ (.tail _ (List.mem_map_of_mem harm))) hrest
        exact htargets _ (List.mem_map_of_mem harm)
    case missing => exact .missing hrest
    case label m => exact absurd rfl (hlabel m)
    case goto | condGoto => cases hterm
    all_goals cases hshape
  · exact .simple n n' hterm (.refl hcovered) hrest

/-- Code that never runs into a label, and the block at its start. -/
theorem turns_of_block {rest rest' : List Stmt} (hsame : SameStmts rest rest')
    (hfalls : neverFalls false rest = true)
    (hplain : ∀ s ∈ rest', s.isStructured = false)
    (hcovered : ∀ s ∈ rest, ∀ e ∈ s.slots, e.Covered S L.Reads False)
    (htargets : ∀ s ∈ Block.keep (Graph.segments rest').1, ∀ l ∈ s.targets, L.Has l) :
    Turns S L rest
      ((Block.keep (Graph.segments rest').1).map (Elimination.convertStmt L.vars)) := by
  induction hsame using SameStmts.code_induction with
  | nil => exact .nil
  | label m => cases hfalls
  | @other s s' rest rest' hs hsame hlabel hlabel' ih =>
      obtain ⟨hcover, hcovered⟩ := List.forall_mem_cons.1 hcovered
      obtain ⟨hshape, hplain⟩ := List.forall_mem_cons.1 hplain
      rw [neverFalls_cons hlabel, Bool.false_or] at hfalls
      rw [Graph.segments_cons hlabel', Block.keep, Stmt.isTerminator_of_same hs] at htargets ⊢
      cases hterm : s.isTerminator with
      | true =>
          rw [hterm, if_pos rfl] at htargets
          exact .head (turnsAt_last hs hterm hcover (htargets s' (.head _)) rest [])
      | false =>
          rw [hterm] at hfalls htargets
          obtain ⟨htarget, htargets⟩ := List.forall_mem_cons.1 htargets
          exact .head (turnsAt_next hs hterm hshape hlabel' hcover htarget
            (ih hfalls hplain hcovered htargets))

end

/-- The fragment of a label and the code after the label. -/
theorem Elimination.Fragments.after {p : Program} {Body : Block → List Stmt → Prop} {vars : LabelVars}
    {g : Graph} {settings : List Stmt} {table : List (String × FuncId)}
    (h : Fragments p Body vars g.labelled settings table) {code body : List Stmt}
    (hg : g.Describes body) (hsame : SameStmts code body) {l : String} (hl : l ∈ g.labels) :
    ∃ rest rest' f, Stmt.after? l code = some rest ∧ SameStmts rest rest' ∧ rest' ⊆ body ∧
      p.func? ((table.lookup l).getD noFunc) = some f ∧ f.params = [] ∧ f.locals = [] ∧
      ∃ b ∈ g.labelled, b.label = l ∧ b.stmts = Block.keep (Graph.segments rest').1 ∧
        Body b f.body := by
  obtain ⟨b, hb, fn, fbody, rfl, htable, hcode, hfbody⟩ := h.lookup hl
  obtain ⟨f, hf, hfcode⟩ := Option.map_eq_some_iff.1 hcode
  have hblock := hb
  rw [hg.labelled] at hb
  obtain ⟨⟨l, seg⟩, hseg, rfl⟩ := List.mem_map.1 hb
  obtain ⟨rest, rest', hrest, hsame', rfl, hsub⟩ := Graph.after?_of_mem_segments hsame hg.nodup hseg
  have hbody : f.body = fbody := congrArg Code.body hfcode
  rw [htable]
  exact ⟨rest, rest', f, hrest, hsame', hsub, hf, congrArg Code.params hfcode,
    congrArg Code.locals hfcode, _, hblock, rfl, rfl, hbody ▸ hfbody⟩

/-! ## The two programs -/

/-- The jumps of a function are removed from a program that hangs together. -/
structure Elimination.Plainly (p p' : Program) (id : FuncId) (c : Code) (g : Graph)
    (vars : LabelVars) (settings : List Stmt) (table : List (String × FuncId)) : Prop where
  code : p.code? id = some c
  graph : ∃ body, SameStmts c.body body ∧ g.Describes body
  removes : Removes PlainBody id p p' g vars settings table
  declared : p.scoped = true
  falls : neverFalls false c.body = true
  targets : ∀ s ∈ c.body, entryLabel ∉ s.targets

namespace Elimination.Plainly

variable {p p' : Program} {id : FuncId} {c : Code} {g : Graph} {vars : LabelVars}
  {settings : List Stmt} {table : List (String × FuncId)}

/-- Any other function has the same code in both programs. -/
theorem same_code (h : Plainly p p' id c g vars settings table) {fn : FuncId} {f : Func}
    (hf : p.func? fn = some f) (hne : fn ≠ id) : ∃ f', p'.func? fn = some f' ∧ f'.code = f.code := by
  have hsize := (Program.isSome_func?.1 (Option.isSome_of_eq_some hf)).2
  have hcode := h.removes.others fn hsize hne
  rw [Program.code?, Program.code?, hf] at hcode
  exact Option.map_eq_some_iff.1 hcode

/-- The function itself after its jumps are removed. -/
theorem own (h : Plainly p p' id c g vars settings table) : ∃ f f', p.func? id = some f ∧
    p'.func? id = some f' ∧ f.code = c ∧ f'.name = f.name ∧ f'.params = f.params ∧
    f'.locals = f.locals ++ vars.map Prod.snd ∧
    f'.body = settings ++ g.entry.stmts.map (convertStmt vars) := by
  obtain ⟨f, hf, hcode⟩ := Option.map_eq_some_iff.1 h.code
  have hown := h.removes.own
  rw [h.code, Option.map_some] at hown
  obtain ⟨f', hf', hcode'⟩ := Option.map_eq_some_iff.1 hown
  subst hcode
  exact ⟨f, f', hf, hf', rfl, congrArg Code.name hcode', congrArg Code.params hcode',
    congrArg Code.locals hcode', congrArg Code.body hcode'⟩

theorem sides_sound (h : Plainly p p' id c g vars settings table) :
    (sides p p' id c.body).Sound where
  types := h.removes.types.symm
  funcs := by
    intro fn hfn
    obtain ⟨f, hf⟩ := Option.isSome_iff_exists.1 hfn
    by_cases hid : fn = id
    · subst hid
      obtain ⟨f, f', hf, hf', -, hname, -⟩ := h.own
      exact ⟨f, f', hf, hf', hname.symm⟩
    · obtain ⟨f', hf', hcode⟩ := h.same_code hf hid
      exact ⟨f, f', hf, hf', (congrArg Code.name hcode).symm⟩
  body := by
    intro fn hfn hspecial
    obtain ⟨f, hf⟩ := Option.isSome_iff_exists.1 hfn
    obtain ⟨f', hf', hcode⟩ := h.same_code hf hspecial
    refine ⟨f, f', hf, hf', (congrArg Code.params hcode).symm, (congrArg Code.locals hcode).symm,
      ?_⟩
    have hbody : f'.body = f.body := congrArg Code.body hcode
    rw [hbody]
    refine .refl f.body fun t ht e he => ?_
    exact Expr.covered_of_lt (fun v hv => .inl (Program.lt_of_scoped h.declared hf
      (List.mem_append_right _ (mem_bodyVariables ht he hv))))
      fun _ _ _ => ⟨fun _ => .inl, .inr trivial⟩
  slot := False.elim

/-- Code of the function mentions variables of the program only, and the
functions in it are loose. -/
theorem covered (h : Plainly p p' id c g vars settings table) {s : Stmt} (hs : s ∈ c.body)
    {e : Expr} (he : e ∈ s.slots) :
    e.Covered (sides p p' id c.body) (layout p id c.body vars table).Reads False := by
  obtain ⟨f, hf, rfl⟩ := Option.map_eq_some_iff.1 h.code
  exact Expr.covered_of_lt (fun v hv => Program.lt_of_scoped h.declared hf
      (List.mem_append_right _ (mem_bodyVariables (mem_allStmts hs) he hv)))
    fun fn hfn _ => ⟨fun _ hx => hx, .inl (mem_bodyClosures (mem_allStmts hs) he hfn)⟩

/-- Every jump of a block goes through the variable of its label. -/
theorem has (h : Plainly p p' id c g vars settings table) {b : Block} (hb : b ∈ g.blocks)
    {s : Stmt} (hs : s ∈ b.stmts) {l : String} (hl : l ∈ s.targets) :
    (layout p id c.body vars table).Has l := by
  obtain ⟨body, hsame, hg⟩ := h.graph
  obtain ⟨s₀, hs₀, hshare⟩ := hsame.exists_of_mem (hg.mem_code hb hs)
  have hne : l ≠ entryLabel := by
    rintro rfl
    exact h.targets s₀ hs₀ (Stmt.targets_of_same hshare ▸ hl)
  have hlabel := hg.resolved b hb s hs l hl hne
  rw [← hg.labels_eq, ← h.removes.labels] at hlabel
  exact exists_lookup_of_mem hlabel

/-! ## Calls -/

/-- A call of the function sets the label variables and goes on with the entry
block. -/
theorem enter (h : Plainly p p' id c g vars settings table) {P : Pairing} {σ σ' : Store}
    (hσ : StorePair (sides p p' id c.body) P σ σ') {env env' : Env}
    (henv : ∀ x, x < p.varCount → P.Agrees (sides p p' id c.body) x env env')
    {args args' : List Value}
    (hargs : List.Forall₂ (ValuePair (sides p p' id c.body) P) args args')
    {stack stack' : List Waiting}
    (hs : StackRel (sides p p' id c.body) (layout p id c.body vars table) P stack stack')
    (tag tag' : Nat) {depth depth' : Nat} {s' : State}
    (hstep : free p' s' = callValue ⟨p', depth' + 1⟩ (.closure tag' id env') args' stack' depth' σ') :
    Follows (sides p p' id c.body) (layout p id c.body vars table) P
      (callValue ⟨p, depth + 1⟩ (.closure tag id env) args stack depth σ) s' := by
  obtain ⟨f, f', hf, hf', rfl, -, hparams, hlocals, hbody⟩ := h.own
  obtain ⟨body, hsame, hg⟩ := h.graph
  have hfresh : ¬ P.Knows σ'.frames.size := fun hk => Nat.lt_irrefl _ (hσ.knows_lt hk)
  let σ₁ := (σ'.newFrame (activation f' args')).2
  have hj : σ'.frames.size < σ₁.frames.size := by simp [σ₁, Store.newFrame]
  have hbinding (x : Nat) : σ₁.binding σ'.frames.size x = (activation f' args').lookup x := by
    rw [Store.binding_newFrame, if_pos rfl]
  -- the label variables are locals, so the settings find them
  have hbound {l : String} {v : Variable} (hv : vars.lookup l = some v) :
      (σ₁.binding σ'.frames.size v.id).isSome := by
    rw [hbinding]
    refine isSome_lookup_activation.2 (List.mem_map_of_mem (List.mem_append_right _ ?_))
    rw [hlocals]
    exact List.mem_append_right _ (List.mem_map_of_mem (Removes.mem_of_lookup hv))
  have hnodup : g.labels.Nodup := by
    rw [hg.labels_eq]
    exact hg.nodup
  obtain ⟨τ, hruns, hset, hfound⟩ := h.removes.fragments.runs_all hnodup h.removes.labels
    h.removes.ids hj hbound env' (g.entry.stmts.map (convertStmt vars)) (.call id :: stack')
    (depth' + 1)
  have hbeyond : Beyond P σ' τ :=
    (Beyond.newFrame _ fun hk => hσ.knows_lt hk).trans (hset.beyond P hfresh)
  have hadded {v : Variable} (hv : v ∈ vars.map Prod.snd) : ∃ l, vars.lookup l = some v := by
    obtain ⟨entry, hentry, rfl⟩ := List.mem_map.1 hv
    exact ⟨_, Removes.lookup_of_mem (h.removes.labels ▸ hnodup) hentry⟩
  obtain ⟨Q, hle, hσ₂, hroot⟩ := ((hσ.beyond hbeyond (Aside.nothing_kept _ _)).newFrame_left
    (activation f args)).root (L := layout p id f.code.body vars table) hparams hlocals hargs
    (by simp [Store.newFrame]) (hset.size ▸ hj) hfresh not_false
    (fun hab => ⟨hσ.frames.left hab, hσ.frames.right hab⟩)
    (fun x => by rw [Store.binding_newFrame, if_pos rfl])
    (fun x hx => by
      rw [hset.others x, hbinding]
      rintro ⟨v, hv, rfl⟩
      exact hx (List.mem_map_of_mem hv))
    (fun v hv => by
      obtain ⟨l, hl⟩ := hadded hv
      obtain ⟨tag, hclosure⟩ := hfound hl
      exact Option.isSome_of_eq_some hclosure)
    (fun v hv => by
      obtain ⟨entry, hentry, rfl⟩ := List.mem_map.1 hv
      exact Nat.not_lt.2 (h.removes.le_id hentry))
    (fun l v hv => ⟨List.mem_map_of_mem (Removes.mem_of_lookup hv), hfound hv⟩) henv
  have hentry : Turns (sides p p' id f.code.body) (layout p id f.code.body vars table)
      f.body (g.entry.stmts.map (convertStmt vars)) := by
    have hentry := hg.entry
    rw [hentry]
    exact turns_of_block hsame h.falls hg.plain (fun s hs e he => h.covered hs he)
      (fun s hs l hl => h.has (.head _) (hentry ▸ hs) hl)
  have hsource : callValue ⟨p, depth + 1⟩ (.closure tag id env) args stack depth σ =
      .next ⟨.complete .normal, .block f.body (σ.frames.size :: env) :: .call id :: stack, depth + 1,
        (σ.newFrame (activation f args)).2⟩ := by
    rw [callValue_closure hf]
  have htarget : callValue ⟨p', depth' + 1⟩ (.closure tag' id env') args' stack' depth' σ' =
      .next ⟨.complete .normal, .block (settings ++ g.entry.stmts.map (convertStmt vars))
        (σ'.frames.size :: env') :: .call id :: stack', depth' + 1, σ₁⟩ := by
    rw [callValue_closure hf', hbody]
  rw [hsource]
  exact .next hle (.head trivial (hstep.trans htarget) (hruns.transfer fun _ _ => ⟨trivial, rfl⟩))
    (.block hσ₂ (.body hroot) hentry (.base id) (hs.mono hle))

theorem layout_sound (h : Plainly p p' id c g vars settings table) :
    (layout p id c.body vars table).Sound (sides p p' id c.body) where
  special := rfl
  slot _ _ := not_false
  body := by
    obtain ⟨f, -, hf, -, rfl, -⟩ := h.own
    exact ⟨f, hf, rfl⟩
  fragment := by
    intro l v hv
    obtain ⟨body, hsame, hg⟩ := h.graph
    have hl : l ∈ g.labels := by
      rw [← h.removes.labels]
      exact List.mem_map_of_mem (Removes.mem_of_lookup hv)
    obtain ⟨rest, rest', f, hrest, hsame', hsub, hf, hparams, hlocals, b, hb, -, hstmts, hfbody⟩ :=
      h.removes.fragments.after hg hsame hl
    refine ⟨rest, f, hrest, hf, hparams, hlocals, ?_⟩
    rw [hfbody, hstmts]
    exact turns_of_block hsame' (neverFalls_after h.falls hrest)
      (fun s hs => hg.plain s (hsub hs))
      (fun s hs e he => h.covered (Stmt.after?_subset hrest hs) he)
      (fun s hs l hl => h.has (.tail _ hb) (hstmts ▸ hs) hl)
  call := by
    intro P σ σ' v v' done done' env env' stack stack' depth depth' fn hσ hv hdone hs hfn hspecial
    have hcall {vs vs' : List Value} (hvs : List.Forall₂ (ValuePair (sides p p' id c.body) P) vs vs')
        {tag : Nat} {base : Env} (hhead : vs.headD .null = .closure tag id base)
        (hstep : free p' ⟨.value v', .operands .call done' [] env' :: stack', depth', σ'⟩ =
          callValue ⟨p', depth' + 1⟩ (vs'.headD .null) vs'.tail stack' depth' σ') :
        Follows (sides p p' id c.body) (layout p id c.body vars table) P
          (callValue ⟨p, depth + 1⟩ (vs.headD .null) vs.tail stack depth σ)
          ⟨.value v', .operands .call done' [] env' :: stack', depth', σ'⟩ := by
      cases hvs with
      | nil => cases hhead
      | cons hfirst hargs =>
          cases hfirst with
          | closure htag hknown henv hloose =>
              cases hhead
              exact h.enter hσ henv hargs hs _ _ hstep
          | _ => cases hhead
    simp only [callee?] at hfn
    split at hfn
    · next hhead =>
        cases hfn
        cases hspecial
        exact hcall (List.rel_append hdone (.cons hv .nil)) hhead rfl
    · cases hfn

end Elimination.Plainly

end Resumable
