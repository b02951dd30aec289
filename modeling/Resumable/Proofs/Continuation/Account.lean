import Mathlib.Data.List.Count
import Resumable.Proofs.Continuation.Assembly
import Resumable.Proofs.Continuation.Support
import Resumable.Proofs.Difference

/-!
# A conversion keeps the books

Every leaf of an expression stands once in what the conversion makes of it, the
result and the stations taken together, and every operation is rebuilt once. What
is there besides is the continuation and what belongs to the stations: their
variables and their literals, one for each. A continuation that is a literal
stands there once, however many ways lead to it. The number of stations depends
on the expression alone.
-/

namespace Resumable

/-- What has to be kept of an expression: its leaves, the targets of its
assignments, and its operations. -/
inductive Piece where
  | literal (l : Literal) (t : Ty)
  | ref (v : Variable)
  | receiver (t : Ty)
  | lambda (fn : FuncId) (t : Ty)
  /-- An increment or decrement of a local. -/
  | incDec (op : UnaryOp) (v : Variable) (t : Ty)
  | target (v : Variable)
  | unary (op : UnaryOp) (t : Ty)
  | binary (op : BinaryOp) (t : Ty)
  | property (name : String) (t : Ty)

def Piece.lambdaId? : Piece → Option FuncId
  | .lambda fn _ => some fn
  | _ => none

namespace Expr

mutual

def pieces : Expr → List Piece
  | .missing => []
  | .literal l t => [.literal l t]
  | .ref v => [.ref v]
  | .receiver t => [.receiver t]
  | .lambda fn t => [.lambda fn t]
  | .unary op (.ref v) t => if op.isIncDec then [.incDec op v t] else [.unary op t, .ref v]
  | .unary op x t => .unary op t :: pieces x
  | .binary op x y t =>
      (if op.isLogical then [] else [.binary op t]) ++ (pieces x ++ pieces y)
  | .conditional c yes no _ => pieces c ++ (pieces yes ++ pieces no)
  | .assign (.ref v) value => .target v :: pieces value
  | .assign target value => pieces target ++ pieces value
  | .call callee args _ => pieces callee ++ piecesList args
  | .property x name t => .property name t :: pieces x
  | .construct _ args => piecesList args

def piecesList : List Expr → List Piece
  | [] => []
  | e :: es => pieces e ++ piecesList es

end

theorem piecesList_eq_flatMap (es : List Expr) : piecesList es = es.flatMap pieces := by
  induction es with
  | nil => rfl
  | cons e es ih => rw [piecesList, ih, List.flatMap_cons]

def exits : Expr → Nat
  | .conditional _ yes no _ => yes.exits + no.exits
  | .binary op _ y _ => if op.isLogical then 1 + y.exits else 1
  | _ => 1

def stationCount : Expr → Nat
  | .unary op _ _ => if op.isIncDec then 0 else 1
  | .binary op _ _ _ => if op.isLogical then 1 else 2
  | .conditional .. | .assign .. | .property .. => 1
  | .call _ args _ => 1 + args.length
  | _ => 0

/-- The stations that nodes take together. -/
def stationTotal (nodes : List Expr) : Nat :=
  nodes.foldr (fun n total => n.stationCount + total) 0

theorem stationTotal_append (xs ys : List Expr) :
    stationTotal (xs ++ ys) = stationTotal xs + stationTotal ys := by
  induction xs with
  | nil => simp [stationTotal]
  | cons x xs ih =>
      change x.stationCount + stationTotal (xs ++ ys) = x.stationCount + stationTotal xs + _
      rw [ih, Nat.add_assoc]

/-- The pieces of a unary operation that is not an increment or decrement. -/
theorem pieces_unary {op : UnaryOp} (h : op.isIncDec = false) (x : Expr) (t : Ty) :
    (unary op x t).pieces = .unary op t :: x.pieces := by
  cases x <;> simp [pieces, h]

theorem pieces_unary_cases (op : UnaryOp) (x : Expr) (t : Ty) :
    (unary op x t).pieces = .unary op t :: x.pieces ∨
      ∃ v, x = .ref v ∧ (unary op x t).pieces = [.incDec op v t] := by
  cases x with
  | ref v => cases h : op.isIncDec <;> simp [pieces, h]
  | _ => exact .inl (by simp [pieces])

theorem pieces_assign_cases (target value : Expr) :
    (assign target value).pieces = target.pieces ++ value.pieces ∨
      ∃ v, target = .ref v ∧ (assign target value).pieces = .target v :: value.pieces := by
  cases target with
  | ref v => exact .inr ⟨v, rfl, by simp [pieces]⟩
  | _ => exact .inl (by simp [pieces])

mutual

/-- The function literals are among the pieces. -/
theorem filterMap_pieces : (e : Expr) → e.pieces.filterMap Piece.lambdaId? = e.literals
  | .missing | .literal .. | .ref _ | .receiver _ | .lambda .. => rfl
  | .unary op x t => by
      have hx := filterMap_pieces x
      rw [literals_unary]
      rcases pieces_unary_cases op x t with h | ⟨v, rfl, h⟩
      · rw [h]
        exact hx
      · rw [h]
        rfl
  | .binary op x y t => by
      rw [pieces, literals_binary, ← filterMap_pieces x, ← filterMap_pieces y,
        ← List.filterMap_append, List.filterMap_append]
      cases op.isLogical <;> rfl
  | .conditional c yes no t => by
      rw [pieces, literals_conditional, ← filterMap_pieces c, ← filterMap_pieces yes,
        ← filterMap_pieces no, List.filterMap_append, List.filterMap_append]
  | .assign target value => by
      have hvalue := filterMap_pieces value
      rw [literals_assign]
      rcases pieces_assign_cases target value with h | ⟨v, rfl, h⟩
      · rw [h, List.filterMap_append, filterMap_pieces target, hvalue]
      · rw [h]
        exact hvalue
  | .call callee args t => by
      rw [pieces, literals_call, ← filterMap_pieces callee, ← filterMap_piecesList args,
        List.filterMap_append]
  | .property x name t => by
      rw [pieces, literals_property, ← filterMap_pieces x]
      rfl
  | .construct cls args => by
      rw [pieces, literals_construct, filterMap_piecesList args]

theorem filterMap_piecesList : (es : List Expr) →
    (piecesList es).filterMap Piece.lambdaId? = es.flatMap literals
  | [] => rfl
  | e :: es => by
      rw [piecesList, List.filterMap_append, filterMap_pieces e, filterMap_piecesList es,
        List.flatMap_cons]

end

end Expr

def bodyPieces (body : List Stmt) : List Piece :=
  (allExprs body).flatMap Expr.pieces

namespace Continuation

/-! ## What a job has to keep -/

/-- The pieces that a continuation adds: a literal stands once, any other
expression once for each way that leads to it. -/
def given (e : Expr) : Option Expr → List Piece
  | none => []
  | some (.lambda fn t) => [.lambda fn t]
  | some k => (List.replicate e.exits k.pieces).flatten

def Job.pieces : Job → List Piece
  | .expr e k => e.pieces ++ given e k
  | .row es _ inner => es.flatMap Expr.pieces ++ inner.pieces

def Job.stations : Job → Nat
  | .expr e _ => Expr.stationTotal e.nodes
  | .row es _ _ => es.length + Expr.stationTotal (es.flatMap Expr.nodes)

inductive Belongs (made : List Station) : Piece → Prop where
  | ref {s : Station} {v : Variable} : s ∈ made → v ∈ s.param :: s.locals → Belongs made (.ref v)
  | target {s : Station} {v : Variable} : s ∈ made → v ∈ s.locals → Belongs made (.target v)
  | lambda {s : Station} (t : Ty) : s ∈ made → Belongs made (.lambda s.id t)

theorem Belongs.mono {made made' : List Station} {m : Piece} (h : Belongs made m)
    (hmade : made ⊆ made') : Belongs made' m := by
  cases h with
  | ref hs hv => exact .ref (hmade hs) hv
  | target hs hv => exact .target (hmade hs) hv
  | lambda t hs => exact .lambda t (hmade hs)

/-! ## Stations -/

section

variable {job : Job} {e' : Expr} {made : List Station}

/-- The stations that one node takes, with those of its parts. -/
theorem stationTotal_nodes {e : Expr} (h : e.isMissing = false) :
    Expr.stationTotal e.nodes = e.stationCount + Expr.stationTotal (e.children.flatMap Expr.nodes) := by
  rw [Expr.nodes_eq h]
  rfl

theorem Operates.stationTotal {e : Expr} {task : Task} {es : List Expr} (h : Operates e task es) :
    Expr.stationTotal e.nodes = es.length + Expr.stationTotal (es.flatMap Expr.nodes) := by
  rw [stationTotal_nodes h.isMissing]
  cases h with
  | unary x t hop => simp [Expr.stationCount, hop, Expr.children]
  | binary x y t hop => simp [Expr.stationCount, hop, Expr.children]
  | assign v x => simp [Expr.stationCount, Expr.children, Expr.nodes, Expr.stationTotal]
  | call callee args t => simp [Expr.stationCount, Expr.children, Nat.add_comm]
  | property x name t => simp [Expr.stationCount, Expr.children]

theorem Chooses.stationTotal {e x : Expr} {task : Task} {yes no : Option Expr} (q : Variable)
    (h : Chooses e task x yes no) : Expr.stationTotal e.nodes =
      1 + (Expr.stationTotal (yes.getD (.ref q)).nodes + Expr.stationTotal (no.getD (.ref q)).nodes) +
        Expr.stationTotal x.nodes := by
  have href : Expr.stationTotal (Expr.ref q).nodes = 0 := rfl
  cases h with
  | or x y t | and x y t | conditional c yes no t =>
      rw [stationTotal_nodes rfl]
      simp only [Expr.stationCount, BinaryOp.isLogical, if_true, Expr.children, List.flatMap_cons,
        List.flatMap_nil, List.append_nil, Expr.stationTotal_append, Option.getD_some,
        Option.getD_none, href]
      omega

/-- The number of stations is that of the job. -/
theorem Assembles.length (h : Assembles job e' made) : made.length = job.stations := by
  induction h with
  | whole k he => cases he <;> simp_all [Job.stations, Expr.nodes, Expr.stationTotal, Expr.stationCount]
  | operates k hop _ _ _ ih => rw [ih, Job.stations, Job.stations, hop.stationTotal]
  | @chooses _ _ _ _ _ _ _ _ _ _ s _ _ _ hchoice _ _ _ _ _ _ _ ihyes ihno ihx =>
      simp only [Job.stations] at ihyes ihno ihx ⊢
      rw [hchoice.stationTotal s.param, ← ihyes, ← ihno, ← ihx]
      simp only [List.cons_append, List.length_cons, List.length_append]
      omega
  | done inner => rfl
  | next _ _ _ _ _ _ ihrow ih =>
      simp only [Job.stations, List.length_cons, List.flatMap_cons,
        Expr.stationTotal_append] at ihrow ih ⊢
      simp only [List.length_append, List.length_cons, List.length_nil]
      omega

/-! ## Pieces -/

theorem pieces_deliver (k : Option Expr) (e : Expr) :
    (deliver k e).pieces = (k.map Expr.pieces).getD [] ++ e.pieces := by
  cases k <;> simp [deliver, Expr.pieces, Expr.piecesList]

/-- Where one way leads out, the continuation stands once. -/
theorem given_of_exits {e : Expr} (h : e.exits = 1) (k : Option Expr) :
    given e k = (k.map Expr.pieces).getD [] := by
  cases k with
  | none => rfl
  | some k => cases k <;> simp [given, h, Expr.pieces]

def ownPieces (task : Task) (t : Ty) : List Piece :=
  match task with
  | .unary op => [.unary op t]
  | .binary op => [.binary op t]
  | .assign (.ref v) => [.target v]
  | .property name => [.property name t]
  | _ => []

theorem Operates.pieces {e : Expr} {task : Task} {es : List Expr} (h : Operates e task es) :
    e.pieces = ownPieces task e.type ++ es.flatMap Expr.pieces := by
  cases h with
  | unary x t hop => simp [Expr.pieces_unary hop, ownPieces, Expr.type]
  | binary x y t hop => simp [Expr.pieces, hop, ownPieces, Expr.type]
  | assign v x => simp [Expr.pieces, ownPieces]
  | call callee args t => simp [Expr.pieces, ownPieces, Expr.piecesList_eq_flatMap]
  | property x name t => simp [Expr.pieces, ownPieces, Expr.type]

theorem Operates.exits {e : Expr} {task : Task} {es : List Expr} (h : Operates e task es) :
    e.exits = 1 := by
  cases h with
  | binary x y t hop => simp [Expr.exits, hop]
  | _ => rfl

theorem Whole.exits {e : Expr} (h : Whole e) : e.exits = 1 := by
  cases h <;> rfl

theorem Chooses.exits {e x : Expr} {task : Task} {yes no : Option Expr} (q : Variable)
    (h : Chooses e task x yes no) :
    e.exits = (yes.getD (.ref q)).exits + (no.getD (.ref q)).exits := by
  cases h with
  | or x y t => rfl
  | and x y t => exact Nat.add_comm ..
  | conditional c yes no t => rfl

@[simp] theorem bodyPieces_nil : bodyPieces [] = [] := rfl

theorem bodyPieces_append (xs ys : List Stmt) :
    bodyPieces (xs ++ ys) = bodyPieces xs ++ bodyPieces ys := by
  simp [bodyPieces, allExprs]

theorem bodyPieces_simple (s : Simple) (share : Option Nat) :
    bodyPieces [.simple s share] = s.slots.flatMap Expr.pieces := by
  rw [bodyPieces, allExprs_simple, List.flatMap_append, flatMap_filled rfl]
  exact List.append_nil _

theorem Station.bodyPieces (s : Station) :
    bodyPieces s.body = bodyPieces s.prologue ++ s.returned.pieces := by
  rw [Station.body, bodyPieces_append, bodyPieces_simple]
  simp [Simple.slots]

def stationPieces (made : List Station) : List Piece :=
  made.flatMap fun s => bodyPieces s.body

theorem stationPieces_append (made made' : List Station) :
    stationPieces (made ++ made') = stationPieces made ++ stationPieces made' :=
  List.flatMap_append

theorem stationPieces_cons (s : Station) (made : List Station) :
    stationPieces (s :: made) = bodyPieces s.prologue ++ s.returned.pieces ++ stationPieces made := by
  rw [stationPieces, List.flatMap_cons, s.bodyPieces]
  rfl

theorem given_of_not_lambda (e : Expr) {k : Option Expr} (h : ∀ fn t, k ≠ some (.lambda fn t)) :
    given e k = (List.replicate e.exits ((k.map Expr.pieces).getD [])).flatten := by
  cases k with
  | none => simp [given]
  | some k =>
      cases k with
      | lambda fn t => exact absurd rfl (h fn t)
      | _ => rfl

theorem eq_ref_of_mem_given {e : Expr} {v : Variable} {m : Piece}
    (h : m ∈ given e (some (.ref v))) : m = .ref v := by
  obtain ⟨row, hrow, hm⟩ := List.mem_flatten.1 h
  rw [List.eq_of_mem_replicate hrow] at hm
  exact List.mem_singleton.1 hm

/-- The variables of a row are parameters of its stations. -/
theorem Assembles.params {es : List Expr} {qs : List Variable} {inner : Expr}
    (h : Assembles (.row es qs inner) e' made) : ∀ q ∈ qs, ∃ s ∈ made, s.param = q := by
  induction es generalizing qs e' made with
  | nil =>
      cases h
      simp
  | cons e es ih =>
      cases h with
      | @next _ _ _ _ _ s made made' hrow =>
          refine List.forall_mem_cons.2 ⟨⟨s, by simp, rfl⟩, fun q hq => ?_⟩
          obtain ⟨s', hs', rfl⟩ := ih hrow q hq
          exact ⟨s', by simp [hs'], rfl⟩

section

variable [DecidableEq Piece]

theorem count_given_add {e yes no : Expr} {k : Option Expr} (h : e.exits = yes.exits + no.exits)
    (hk : ∀ fn t, k ≠ some (.lambda fn t)) (m : Piece) :
    (given e k).count m = (given yes k).count m + (given no k).count m := by
  rw [given_of_not_lambda e hk, given_of_not_lambda yes hk, given_of_not_lambda no hk, h,
    List.replicate_add, List.flatten_append, List.count_append]

/-- A continuation that two ways share stands once if it is a literal: the ways
refer to the local that holds it. -/
theorem Shares.count {k shared : Option Expr} {locals : List Variable} {prologue : List Stmt}
    (h : Shares k locals prologue shared) {e yes no : Expr} (hexits : e.exits = yes.exits + no.exits) :
    ∃ new : List Piece,
      (∀ m, (bodyPieces prologue).count m + (given yes shared).count m + (given no shared).count m =
        (given e k).count m + new.count m) ∧
      ∀ m ∈ new, ∃ v ∈ locals, m = .ref v ∨ m = .target v := by
  cases h with
  | same hk => exact ⟨[], fun m => by simp [count_given_add hexits hk], by simp⟩
  | lambda fn t v =>
      refine ⟨[.target v] ++ (given yes (some (.ref v)) ++ given no (some (.ref v))), fun m => ?_, ?_⟩
      · have hset : bodyPieces [.setVar v (.lambda fn t)] = [.target v] ++ [.lambda fn t] := by
          rw [Stmt.setVar, bodyPieces_simple]
          simp [Simple.slots, Expr.pieces]
        rw [hset, List.count_append, List.count_append, List.count_append]
        change _ = List.count m [Piece.lambda fn t] + _
        omega
      · intro m hm
        refine ⟨v, .head _, ?_⟩
        rcases List.mem_append.1 hm with hm | hm
        · exact .inr (List.mem_singleton.1 hm)
        · exact .inl ((List.mem_append.1 hm).elim eq_ref_of_mem_given eq_ref_of_mem_given)

/-- Two ways hold the pieces of the whole but for the value tested, which a way
that is no expression refers to. -/
theorem Chooses.count {e x : Expr} {task : Task} {yes no : Option Expr}
    (h : Chooses e task x yes no) (q : Variable) : ∃ new : List Piece,
      (∀ m, (yes.getD (.ref q)).pieces.count m + (no.getD (.ref q)).pieces.count m +
        x.pieces.count m = e.pieces.count m + new.count m) ∧ ∀ m ∈ new, m = .ref q := by
  cases h with
  | or x y t | and x y t =>
      refine ⟨[.ref q], fun m => ?_, by simp⟩
      simp [Expr.pieces, BinaryOp.isLogical]
      omega
  | conditional c yes no t =>
      refine ⟨[], fun m => ?_, by simp⟩
      simp [Expr.pieces]
      omega

/-- The books of a job: what it makes holds the pieces to be found and new ones,
which belong to its stations, with one literal for each of these. -/
structure Balances (job : Job) (e' : Expr) (made : List Station) (new : List Piece) : Prop where
  count : ∀ m, e'.pieces.count m + (stationPieces made).count m = job.pieces.count m + new.count m
  belongs : ∀ m ∈ new, Belongs made m
  lambdas : (new.filterMap Piece.lambdaId?).Perm (made.map Station.id)

theorem balances_whole {e : Expr} (k : Option Expr) (he : Whole e) :
    Balances (.expr e k) (deliver k e) [] [] where
  count m := by
    rw [pieces_deliver, Job.pieces, given_of_exits he.exits]
    simp [stationPieces, Nat.add_comm]
  belongs m hm := absurd hm List.not_mem_nil
  lambdas := .nil

theorem balances_operates {e f : Expr} {task : Task} {es : List Expr} {qs : List Variable}
    {new : List Piece} (k : Option Expr) (hop : Operates e task es)
    (hf : Operates f task (qs.map .ref)) (htype : f.type = e.type)
    (hqs : ∀ q ∈ qs, ∃ s ∈ made, s.param = q)
    (h : Balances (.row es qs (deliver k f)) e' made new) :
    Balances (.expr e k) e' made (new ++ qs.map .ref) where
  count m := by
    have hcount := h.count m
    have hrefs : (qs.map Expr.ref).flatMap Expr.pieces = qs.map Piece.ref := by
      rw [List.flatMap_map]
      exact List.map_eq_flatMap.symm
    rw [Job.pieces, pieces_deliver, hf.pieces, hrefs, htype] at hcount
    rw [Job.pieces, given_of_exits hop.exits, hop.pieces]
    simp only [List.count_append] at hcount ⊢
    omega
  belongs m hm := by
    rcases List.mem_append.1 hm with hm | hm
    · exact h.belongs m hm
    · obtain ⟨q, hq, rfl⟩ := List.mem_map.1 hm
      obtain ⟨s, hs, rfl⟩ := hqs q hq
      exact .ref hs (.head _)
  lambdas := by
    have hrefs : (qs.map Piece.ref).filterMap Piece.lambdaId? = [] := by
      rw [List.filterMap_eq_nil_iff]
      intro m hm
      obtain ⟨q, -, rfl⟩ := List.mem_map.1 hm
      rfl
    rw [List.filterMap_append, hrefs, List.append_nil]
    exact h.lambdas

theorem balances_next {e inner : Expr} {es : List Expr} {qs : List Variable} {s : Station}
    {made' : List Station} {new new' : List Piece} (hprologue : s.prologue = [])
    (hrow : Balances (.row es qs inner) s.returned made new)
    (h : Balances (.expr e (some s.literal)) e' made' new') :
    Balances (.row (e :: es) (s.param :: qs) inner) e' (made ++ [s] ++ made')
      (new ++ [.lambda s.id (.function s.returned.type.orVoid [s.param.type])] ++ new') where
  count m := by
    have hrow := hrow.count m
    have hcount := h.count m
    have hgiven : given e (some s.literal) =
      [.lambda s.id (.function s.returned.type.orVoid [s.param.type])] := rfl
    rw [Job.pieces, hgiven] at hcount
    rw [Job.pieces] at hrow
    rw [Job.pieces, List.flatMap_cons, stationPieces_append, stationPieces_append, stationPieces_cons,
      hprologue]
    simp only [List.count_append, bodyPieces_nil, List.nil_append] at hrow hcount ⊢
    have hnone : (stationPieces []).count m = 0 := rfl
    omega
  belongs m hm := by
    rcases List.mem_append.1 hm with hm | hm
    · rcases List.mem_append.1 hm with hm | hm
      · refine (hrow.belongs m hm).mono ?_
        exact List.Subset.trans (List.subset_append_left ..) (List.subset_append_left ..)
      · rw [List.mem_singleton.1 hm]
        exact .lambda _ (by simp)
    · exact (h.belongs m hm).mono (List.subset_append_right ..)
  lambdas := by
    simp only [List.filterMap_append, List.map_append]
    exact (hrow.lambdas.append (.refl _)).append h.lambdas

theorem balances_chooses {e x a b : Expr} {task : Task} {yes no k shared : Option Expr} {s : Station}
    {made' made'' : List Station} {new new' new'' : List Piece} (hchoice : Chooses e task x yes no)
    (hshares : Shares k s.locals s.prologue shared)
    (hreturned : s.returned = .conditional (.ref s.param) a b (resultOf k e.type).orVoid)
    (hyes : Balances (.expr (yes.getD (.ref s.param)) shared) a made new)
    (hno : Balances (.expr (no.getD (.ref s.param)) shared) b made' new')
    (hx : Balances (.expr x (some s.literal)) e' made'' new'') :
    ∃ news, Balances (.expr e k) e' (s :: (made ++ made') ++ made'') news := by
  obtain ⟨kept, hkept, hlocals⟩ := hshares.count (hchoice.exits s.param)
  obtain ⟨tested, htested, hparam⟩ := hchoice.count s.param
  let own : List Piece := [.lambda s.id (.function s.returned.type.orVoid [s.param.type])]
  have hplain : (kept ++ tested ++ [Piece.ref s.param]).filterMap Piece.lambdaId? = [] := by
    rw [List.filterMap_eq_nil_iff]
    intro m hm
    rcases List.mem_append.1 hm with hm | hm
    · rcases List.mem_append.1 hm with hm | hm
      · obtain ⟨v, -, rfl | rfl⟩ := hlocals m hm <;> rfl
      · rw [hparam m hm]
        rfl
    · rw [List.mem_singleton.1 hm]
      rfl
  refine ⟨own ++ (new ++ new') ++ new'' ++ (kept ++ tested ++ [Piece.ref s.param]), fun m => ?_, ?_, ?_⟩
  · have hyes := hyes.count m
    have hno := hno.count m
    have hx := hx.count m
    have hkept := hkept m
    have htested := htested m
    have hgiven : given x (some s.literal) = own := rfl
    have hpieces : s.returned.pieces = [.ref s.param] ++ (a.pieces ++ b.pieces) := by
      rw [hreturned]
      rfl
    rw [Job.pieces] at hyes hno hx
    rw [hgiven] at hx
    rw [Job.pieces, stationPieces_append, stationPieces_cons, stationPieces_append, hpieces]
    simp only [List.count_append] at hyes hno hx ⊢
    omega
  · have hs : s ∈ s :: (made ++ made') ++ made'' := by simp
    have hways : made ++ made' ⊆ s :: (made ++ made') ++ made'' :=
      List.Subset.trans (List.subset_cons_self ..) (List.subset_append_left ..)
    intro m hm
    simp only [own, List.mem_append, List.mem_singleton] at hm
    rcases hm with ((rfl | hm | hm) | hm) | (hm | hm) | rfl
    · exact .lambda _ hs
    · exact (hyes.belongs m hm).mono (List.Subset.trans (List.subset_append_left ..) hways)
    · exact (hno.belongs m hm).mono (List.Subset.trans (List.subset_append_right ..) hways)
    · exact (hx.belongs m hm).mono (List.subset_append_right ..)
    · obtain ⟨v, hv, rfl | rfl⟩ := hlocals m hm
      · exact .ref hs (.tail _ hv)
      · exact .target hs hv
    · rw [hparam m hm]
      exact .ref hs (.head _)
    · exact .ref hs (.head _)
  · rw [List.filterMap_append, hplain, List.append_nil]
    simp only [List.filterMap_append, List.map_append, List.cons_append, List.map_cons]
    exact ((hyes.lambdas.append hno.lambdas).cons s.id).append hx.lambdas

theorem Assembles.balances (h : Assembles job e' made) : ∃ new, Balances job e' made new := by
  induction h with
  | whole k he => exact ⟨[], balances_whole k he⟩
  | operates k hop hf htype hrow ih =>
      obtain ⟨new, hnew⟩ := ih
      exact ⟨_, balances_operates k hop hf htype hrow.params hnew⟩
  | chooses hchoice hshares _ _ _ _ hreturned _ ihyes ihno ihx =>
      obtain ⟨new, hnew⟩ := ihyes
      obtain ⟨new', hnew'⟩ := ihno
      obtain ⟨new'', hnew''⟩ := ihx
      exact balances_chooses hchoice hshares hreturned hnew hnew' hnew''
  | done inner =>
      refine ⟨[], fun m => by simp [Job.pieces, stationPieces], ?_, .nil⟩
      exact fun m hm => absurd hm List.not_mem_nil
  | next _ _ hprologue _ _ _ ihrow ih =>
      obtain ⟨new, hnew⟩ := ihrow
      obtain ⟨new', hnew'⟩ := ih
      exact ⟨_, balances_next hprologue hnew hnew'⟩

end

end

/-! ## Conversions -/

/-- The functions that a program has beyond those of an earlier one. -/
def addedIds (p p' : Program) : List FuncId :=
  List.range' (p.size + 1) (p'.size - p.size)

/-- The pieces of an expression and of the functions that a program has beyond
those of an earlier one. -/
def piecesMade (p p' : Program) (e' : Expr) : List Piece :=
  e'.pieces ++ (addedIds p p').flatMap fun fn => bodyPieces (p'.bodyOf fn)

/-- A piece that an earlier program could not have: it stands for a variable
drawn since or is the literal of a function made since. -/
inductive Added (p p' : Program) : Piece → Prop where
  | ref {v : Variable} : p.varCount ≤ v.id → v.id < p'.varCount → Added p p' (.ref v)
  | target {v : Variable} : p.varCount ≤ v.id → v.id < p'.varCount → Added p p' (.target v)
  | lambda {fn : FuncId} (t : Ty) : p.size < fn → fn ≤ p'.size → Added p p' (.lambda fn t)

section

variable {low : Nat} {w w' : Workspace} {made : List Station}

theorem Adds.ids_perm (h : Adds low w w' made) :
    (made.map Station.id).Perm (addedIds w.program w'.program) := by
  rw [addedIds, h.size, Nat.add_sub_cancel_left]
  exact h.ids

theorem Adds.pieces_perm (h : Adds low w w' made) : (stationPieces made).Perm
    ((addedIds w.program w'.program).flatMap fun fn =>
      bodyPieces (w'.program.bodyOf fn)) := by
  have hbodies : stationPieces made =
      (made.map Station.id).flatMap fun fn => bodyPieces (w'.program.bodyOf fn) := by
    rw [stationPieces, List.flatMap_map]
    refine List.flatMap_congr fun s hs => ?_
    rw [Program.bodyOf_eq_content?, h.new s hs]
    rfl
  rw [hbodies]
  exact h.ids_perm.flatMap_right _

theorem Belongs.added {m : Piece} (h : Belongs made m) (hadds : Adds w.program.varCount w w' made) :
    Added w.program w'.program m := by
  cases h with
  | ref hs hv => exact .ref (hadds.drawn _ hs _ hv).1 (hadds.drawn _ hs _ hv).2
  | target hs hv =>
      exact .target (hadds.drawn _ hs _ (.tail _ hv)).1 (hadds.drawn _ hs _ (.tail _ hv)).2
  | lambda t hs => exact .lambda t (hadds.bounds hs).1 (hadds.bounds hs).2

end

/-- A conversion neither loses nor repeats anything. The pieces of the result and
of the functions made are those of the expression, those of the continuation, and
new ones: variables drawn and, once each, the literals of the functions made. A
continuation that is a literal stands there once. The functions made are counted
by the nodes of the expression, whatever the continuation is. -/
theorem convert_conserves {owner : FuncId} {e e' : Expr} {k : Option Expr} {w w' : Workspace}
    (h : convert owner e k w = .ok e' w') :
    (∃ new, (piecesMade w.program w'.program e').Perm (e.pieces ++ given e k ++ new) ∧
      (∀ m ∈ new, Added w.program w'.program m) ∧
      (new.filterMap Piece.lambdaId?).Perm (addedIds w.program w'.program)) ∧
    (∀ fn t, k = some (.lambda fn t) → fn ≤ w.program.size → fn ∉ e.literals →
      ((piecesMade w.program w'.program e').filterMap Piece.lambdaId?).count fn = 1) ∧
    w'.program.size = w.program.size + Expr.stationTotal e.nodes ∧
    w'.continuations = w.continuations + Expr.stationTotal e.nodes := by
  classical
  obtain ⟨made, hassembles, hadds⟩ := assembled owner e h
  obtain ⟨new, hbalances⟩ := hassembles.balances
  have hlength : made.length = Expr.stationTotal e.nodes := hassembles.length
  have hlambdas := hbalances.lambdas.trans hadds.ids_perm
  have hpieces : (piecesMade w.program w'.program e').Perm (e.pieces ++ given e k ++ new) := by
    refine (hadds.pieces_perm.symm.append_left _).trans (List.perm_iff_count.2 fun m => ?_)
    rw [List.count_append, List.count_append]
    exact hbalances.count m
  refine ⟨⟨new, hpieces, fun m hm => (hbalances.belongs m hm).added hadds, hlambdas⟩, ?_,
    hlength ▸ hadds.size, hlength ▸ hadds.continuations⟩
  rintro fn t rfl hfn hunnamed
  have hnew : (addedIds w.program w'.program).count fn = 0 := by
    refine List.count_eq_zero.2 fun hmem => ?_
    exact Nat.not_le_of_lt (Nat.lt_succ_of_le hfn) (List.mem_range'_1.1 hmem).1
  have hgiven : (given e (some (.lambda fn t))).filterMap Piece.lambdaId? = [fn] := rfl
  rw [(hpieces.filterMap _).count_eq, List.filterMap_append, List.filterMap_append,
    Expr.filterMap_pieces, hgiven, List.count_append, List.count_append, hlambdas.count_eq, hnew,
    List.count_eq_zero.2 hunnamed, List.count_singleton_self]

/-- Choices inside of choices, with an increment, an assignment and a literal. -/
def nestedChoices : Expr :=
  let x : Expr := .ref ⟨0, "x", .int⟩
  .conditional x (.binary .and x (.unary .postInc x .int) .int)
    (.conditional (.unary .not x .boolean) (.int 1) (.assign x (.int 2)) .int) .int

theorem convert_conserves_choices : ∃ e' w',
    convert 1 nestedChoices (some (.lambda 2 .variant)) (sample #[{ name := "f" }, { name := "k" }]) =
      .ok e' w' ∧
    (∃ new, (piecesMade (sample #[{ name := "f" }, { name := "k" }]).program w'.program e').Perm
      (nestedChoices.pieces ++ [.lambda 2 .variant] ++ new)) ∧
    ((piecesMade (sample #[{ name := "f" }, { name := "k" }]).program w'.program e').filterMap
      Piece.lambdaId?).count 2 = 1 ∧
    w'.program.size = 2 + 5 ∧ w'.continuations = 0 + 5 := by
  obtain ⟨e', w', hrun, -⟩ := Lowering.ok_of_succeeds
    (show Lowering.succeeds (convert 1 nestedChoices (some (.lambda 2 .variant)))
      (sample #[{ name := "f" }, { name := "k" }]) (fun _ => true) = true by decide +kernel)
  obtain ⟨⟨new, hpieces, -⟩, honce, hsize, hcount⟩ := convert_conserves hrun
  exact ⟨e', w', hrun, ⟨new, hpieces⟩, honce 2 .variant rfl (by decide) (by decide), hsize, hcount⟩

end Continuation

end Resumable
