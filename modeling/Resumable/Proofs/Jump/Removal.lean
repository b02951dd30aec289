import Resumable.Proofs.Difference
import Resumable.Proofs.Jump.Plain

/-!
# Removing jumps keeps the meaning

A call of a function from which the jumps were removed ends as the jump machine
ends on the function as it was.
-/

namespace Resumable

open Machine

namespace Elimination

def isKnown (p : Program) (fn : FuncId) : Bool :=
  (p.func? fn).isSome

/-- The functions that stand in a body as literals. -/
def isLoose (body : List Stmt) (fn : FuncId) : Bool :=
  (bodyClosures body).contains fn

theorem sides_allows {p p' : Program} {id : FuncId} {body : List Stmt} {s : State}
    (h : regular (isKnown p) (isLoose body) s = true) : (sides p p' id body).Allows s :=
  .of_regular (fun _ hfn => hfn) (fun _ hfn => List.contains_iff_mem.2 hfn) h

/-- What removing the jumps of a function comes to. -/
theorem plain_spec {w w' : Workspace} {id : FuncId} {result : Result}
    (h : plain id w = .ok result w') {f : Func} (hf : w.program.func? id = some f) :
    ∃ body g settings table, SameStmts f.body body ∧ g.Describes body ∧
      Removes PlainBody id w.program w'.program g result.labelVars settings table := by
  unfold plain at h
  obtain ⟨f₀, w₀, hfunc, hrest⟩ := bind_eq_ok.1 h
  obtain ⟨rfl, rfl⟩ := Lowering.func_eq_ok.1 hfunc
  obtain ⟨⟨result', notes⟩, w₁, hnotes, hresult⟩ := bind_eq_ok.1 hrest
  obtain ⟨rfl, rfl⟩ := pure_eq_ok.1 hresult
  obtain ⟨g, settings, table, hbuild, hremoves, -⟩ :=
    eliminate_spec (withNotes_eq_ok.1 hnotes) (Program.code?_eq_some hf)
  refine ⟨_, g, settings, table, Stmt.same_share f.body (w.program.shareCount + ·),
    Graph.describes_of_build hbuild, hremoves.imp ?_⟩
  rintro b body ⟨p, n, n', -, hhook⟩
  cases hhook
  rfl

/-- A call that the jump machine brings to an end ends alike without jumps. -/
theorem Plainly.ends {p p' : Program} {id : FuncId} {f : Func} {g : Graph} {vars : LabelVars}
    {settings : List Stmt} {table : List (String × FuncId)}
    (h : Plainly p p' id f.code g vars settings table) (hf : p.func? id = some f)
    {store : Store} (hstore : store.valid p = true) {env : Env}
    (henv : ∀ i ∈ env, i < store.frames.size) {args : List Value}
    (hargs : ∀ v ∈ args, v.valid p store = true) {r : Except Failure Value} {σ : Store}
    (hrun : Ends (jump p id) (fun s => regular (isKnown p) (isLoose f.body) s = true)
      (entered f id env args store) r σ) (tag : Nat) :
    ∃ limit r' σ', EndAlike store r σ r' σ' ∧ ∀ depth, limit ≤ depth →
      ∃ fuel, call ⟨p', depth⟩ fuel (.closure tag id env) args store = some (r', σ') := by
  obtain ⟨f₀, f', hf₀, hf', -⟩ := h.own
  have hσ : StorePair (sides p p' id f.body) (.same store) store store :=
    .same (fun _ hfn => hfn) (fun _ _ _ => trivial) trivial rfl hstore
  have hpairs : List.Forall₂ (ValuePair (sides p p' id f.body) (.same store)) args args :=
    List.forall₂_same.2 fun v hv =>
      .same (fun _ hfn => hfn) (fun _ _ _ => trivial) trivial (hargs v hv)
  obtain ⟨s', hs'⟩ := exists_free_eq_callValue p' (.closure tag id env) args store
  have hfollows : Follows (sides p p' id f.body) (layout p id f.body vars table)
      (.same store) (callValue ⟨p, 0 + 1⟩ (.closure tag id env) args [] 0 store) s' :=
    h.enter hσ (fun x _ => Pairing.same_agrees henv trivial) hpairs .nil tag tag hs'
  rw [callValue_closure hf] at hfollows
  cases hfollows with
  | next hle hruns hrel =>
      have hallowed : Ends (jump p id) (sides p p' id f.body).Allows
          (entered f id env args store) r σ :=
        hrun.transfer fun s hs => ⟨sides_allows hs, rfl⟩
      obtain ⟨r', σ', hends, Q, hleQ, hσ', hresult⟩ :=
        (Related.simulates h.sides_sound h.layout_sound _).ends hallowed
          ⟨⟨rfl, rfl⟩, _, hle, hrel⟩
      have hcalled := (hruns.ends hends).tail (hs'.trans (callValue_closure hf' ..))
      obtain ⟨limit, hlimit⟩ := hcalled.called hf' tag
      exact ⟨limit, r', σ', .of_pair hσ' hleQ (fun _ => trivial) trivial hresult, hlimit⟩

/-! ## The result -/

/-- Whether code has a graph in which every block but the last one ends in a
terminator, and none of its jumps goes to the entry. -/
def isJumpCode (code : List Stmt) : Bool :=
  (match Graph.build code with
    | .ok g => g.blocks.dropLast.all Block.terminated
    | .error _ => false) &&
  code.all fun s => !s.targets.contains entryLabel

theorem neverFalls_of_isJumpCode {code : List Stmt} (h : isJumpCode code = true) :
    neverFalls false code = true := by
  simp only [isJumpCode, Bool.and_eq_true] at h
  cases hbuild : Graph.build code with
  | ok g =>
      rw [hbuild] at h
      exact (Graph.describes_of_build hbuild).neverFalls (List.all_eq_true.1 h.1)
  | error f =>
      rw [hbuild] at h
      cases h.1

theorem targets_of_isJumpCode {code : List Stmt} (h : isJumpCode code = true) {s : Stmt}
    (hs : s ∈ code) : entryLabel ∉ s.targets := by
  simp only [isJumpCode, Bool.and_eq_true, List.all_eq_true] at h
  simpa using h.2 s hs

/-- Whenever the jump machine brings a call of a function to an end, a call of
the function without its jumps ends alike under every limit that is large
enough. On the way the machine makes values of functions of the program only,
and no function whose literal stands in the body names a field. -/
theorem plain_sound {w w' : Workspace} {id : FuncId} {result : Result}
    (hplain : plain id w = .ok result w') {f : Func} (hf : w.program.func? id = some f)
    (hcode : isJumpCode f.body = true) (hscoped : w.program.scoped = true) {store : Store}
    (hstore : store.valid w.program = true) {env : Env} (henv : ∀ i ∈ env, i < store.frames.size)
    {args : List Value} (hargs : ∀ v ∈ args, v.valid w.program store = true) (tag : Nat)
    {fuel : Nat} {r : Except Failure Value} {σ : Store}
    (hrun : watch (jump w.program id) (regular (isKnown w.program) (isLoose f.body)) fuel
      (entered f id env args store) = some (r, σ)) :
    ∃ limit r' σ', EndAlike store r σ r' σ' ∧ ∀ depth, limit ≤ depth →
      ∃ fuel, call ⟨w'.program, depth⟩ fuel (.closure tag id env) args store = some (r', σ') := by
  obtain ⟨body, g, settings, table, hsame, hg, hremoves⟩ := plain_spec hplain hf
  have hplainly : Plainly w.program w'.program id f.code g result.labelVars settings table :=
    ⟨Program.code?_eq_some hf, ⟨body, hsame, hg⟩, hremoves, hscoped, neverFalls_of_isJumpCode hcode,
      fun s hs => targets_of_isJumpCode hcode hs⟩
  exact hplainly.ends hf hstore henv hargs (ends_of_watch hrun) tag

def twoEntries : Func where
  name := "f"
  params := [⟨0, "n", .variant⟩]
  body :=
    let n : Expr := .ref ⟨0, "n", .variant⟩
    let b : Expr := .literal (.str "b") .variant
    [.condGoto n "Mid" "Top",
      .label "Top", .expr (.mkCall (.ref ⟨1, "t", .variant⟩) [n]), .goto "Mid",
      .label "Mid", .dispatch n [⟨b, "End"⟩], .expr (.assign n b), .goto "Top",
      .label "End", .ret n]

theorem plain_sound_twoEntries : ∃ result w' r σ limit r' σ',
    plain 1 (sample #[twoEntries]) = .ok result w' ∧
    watch (jump (sample #[twoEntries]).program 1)
      (regular (isKnown (sample #[twoEntries]).program) (isLoose twoEntries.body)) 100
      (entered twoEntries 1 [] [.str "a"] tracing) = some (r, σ) ∧
    σ.trace = #["t(\"b\")"] ∧ EndAlike tracing r σ r' σ' ∧ ∀ depth, limit ≤ depth →
      ∃ fuel, call ⟨w'.program, depth⟩ fuel (.closure 0 1 []) [.str "a"] tracing = some (r', σ') := by
  obtain ⟨result, w', hplain, -⟩ := Lowering.ok_of_succeeds
    (show Lowering.succeeds (plain 1) (sample #[twoEntries]) (fun _ => true) = true by
      decide +kernel)
  obtain ⟨⟨r, σ⟩, hrun, htrace⟩ := (Option.any_eq_true _ _).1
    (show (watch (jump (sample #[twoEntries]).program 1)
      (regular (isKnown (sample #[twoEntries]).program) (isLoose twoEntries.body)) 100
      (entered twoEntries 1 [] [.str "a"] tracing)).any (·.2.trace = #["t(\"b\")"]) = true by
        decide +kernel)
  obtain ⟨limit, r', σ', halike, hcall⟩ := plain_sound hplain rfl (by decide +kernel)
    (by decide +kernel) (by decide +kernel) (by simp) (by decide +kernel) 0 hrun
  exact ⟨result, w', r, σ, limit, r', σ', hplain, hrun, by simpa using htrace, halike, hcall⟩

/-! ## What the conditions on the machine are for -/

/-- Two runs of a loop make the same function anew and name a field by it. -/
def keyed : Func where
  name := "f"
  locals := [⟨0, "o", .variant⟩, ⟨2, "n", .variant⟩, ⟨3, "c", .variant⟩]
  body :=
    let field : Expr := .binary .index (.ref ⟨0, "o", .variant⟩) (.ref ⟨3, "c", .variant⟩) .variant
    let n : Expr := .ref ⟨2, "n", .variant⟩
    [.expr (.assign (.ref ⟨0, "o", .variant⟩) (.construct none [])),
      .expr (.assign n (.literal (.bool true) .variant)), .goto "Loop",
      .label "Loop", .expr (.assign (.ref ⟨3, "c", .variant⟩) (.lambda 2 .variant)),
      .expr (.mkCall (.ref ⟨1, "t", .variant⟩) [field]),
      .expr (.assign field (.literal (.bool true) .variant)), .condGoto n "Again" "End",
      .label "Again", .expr (.assign n (.literal .null .variant)), .goto "Loop",
      .label "End"]

def dangling : Func where
  name := "f"
  body := [.goto "A", .label "A", .goto "B", .label "B", .ret (.lambda 2 .variant)]

/-- Fragments that make a function anew make it in other frames, so it names
another field each time, and the fragments themselves are functions that the
program did not have. -/
theorem plain_differs :
    (isJumpCode keyed.body = true ∧
      Differs #[keyed, { name := "" }] (plain 1) (jump (sample #[keyed, { name := "" }]).program 1)
        keyed (regular (isKnown (sample #[keyed, { name := "" }]).program) fun _ => false)) ∧
    (isJumpCode dangling.body = true ∧
      Differs #[dangling] (plain 1) (jump (sample #[dangling]).program 1) dangling
        (regular (fun _ => true) (isLoose dangling.body))) := by
  refine ⟨⟨by decide +kernel, ?_⟩, ⟨by decide +kernel, ?_⟩⟩
  · exact .of_observed 500 5 rfl (by decide +kernel) (by decide +kernel) (by decide +kernel)
  · exact .of_observed 100 3 rfl (by decide +kernel) (by decide +kernel) (by decide +kernel)

end Elimination

end Resumable
