import Resumable.Proofs.Structured.Blocks
import Resumable.Proofs.Tree.Contents

/-!
# Yields in lowered code

Lowering puts a jump right after every yield, and no block is cut between the
two. So a block holds at most one yield, and it stands right before the jump
that ends the block.
-/

namespace Resumable

inductive Resumed : List Stmt → Prop where
  | nil : Resumed []
  | yield {x : Expr} {share : Option Nat} {l : String} {rest : List Stmt} : Resumed rest →
      Resumed (.simple (.yield x) share :: .goto l :: rest)
  | cons {s : Stmt} {rest : List Stmt} : s.isYield = false → Resumed rest → Resumed (s :: rest)

/-- The only yield, if there is one, stands right before the jump at the end. -/
inductive Paused : List Stmt → Prop where
  | nil : Paused []
  | yield {x : Expr} {share : Option Nat} {l : String} :
      Paused [.simple (.yield x) share, .goto l]
  | cons {s : Stmt} {rest : List Stmt} : s.isYield = false → Paused rest → Paused (s :: rest)

namespace Resumed

variable {code code' : List Stmt}

theorem of_quiet (h : ∀ s ∈ code, s.isYield = false) : Resumed code := by
  induction code with
  | nil => exact .nil
  | cons s rest ih =>
      obtain ⟨hs, hrest⟩ := List.forall_mem_cons.1 h
      exact .cons hs (ih hrest)

theorem append (h : Resumed code) (h' : Resumed code') : Resumed (code ++ code') := by
  induction h with
  | nil => exact h'
  | yield _ ih => exact .yield ih
  | cons hs _ ih => exact .cons hs ih

theorem of_same (h : Resumed code) (hsame : SameStmts code code') : Resumed code' := by
  induction h generalizing code' with
  | nil =>
      rw [List.forall₂_nil_left_iff.1 hsame]
      exact .nil
  | yield _ ih =>
      obtain ⟨s, rest, hs, hrest, rfl⟩ := List.forall₂_cons_left_iff.1 hsame
      obtain ⟨t, rest', ht, hrest', rfl⟩ := List.forall₂_cons_left_iff.1 hrest
      obtain rfl | ⟨_, _, _, hx, -⟩ := Stmt.same_cases ht
      · obtain rfl | ⟨_, _, _, hx, rfl⟩ := Stmt.same_cases hs
        · exact .yield (ih hrest')
        · cases hx
          exact .yield (ih hrest')
      · cases hx
  | cons hs _ ih =>
      obtain ⟨t, rest, ht, hrest, rfl⟩ := List.forall₂_cons_left_iff.1 hsame
      refine .cons ?_ (ih hrest)
      obtain rfl | ⟨x, _, _, rfl, rfl⟩ := Stmt.same_cases ht
      · exact hs
      · cases x <;> first | rfl | cases hs

/-- Cutting code at its labels separates no yield from its jump. -/
theorem segments (h : Resumed code) : Resumed (Graph.segments code).1 ∧
    ∀ seg ∈ (Graph.segments code).2, Resumed seg.2 := by
  induction h with
  | nil => exact ⟨.nil, fun _ hseg => absurd hseg List.not_mem_nil⟩
  | yield _ ih => exact ⟨.yield ih.1, ih.2⟩
  | @cons s rest hs _ ih =>
      by_cases hlabel : ∃ l, s = .label l
      · obtain ⟨l, rfl⟩ := hlabel
        exact ⟨.nil, List.forall_mem_cons.2 ih⟩
      · rw [Graph.segments_cons fun l hl => hlabel ⟨l, hl⟩]
        exact ⟨.cons hs ih.1, ih.2⟩

theorem keep (h : Resumed code) : Paused (Block.keep code) := by
  induction h with
  | nil => exact .nil
  | yield => exact .yield
  | cons hs _ ih =>
      rw [Block.keep]
      split
      · exact .cons hs .nil
      · exact .cons hs ih

theorem paused_of_mem_split (h : Resumed code) {b : Block} (hb : b ∈ (Graph.split code).blocks) :
    Paused b.stmts := by
  rcases List.mem_cons.1 hb with rfl | hb
  · exact h.segments.1.keep
  · obtain ⟨seg, hseg, rfl⟩ := List.mem_map.1 hb
    exact (h.segments.2 seg hseg).keep

end Resumed

namespace JumpCode

theorem resumed_jump {f : Bool} {l : String} : Resumed (jump f l) := by
  refine .of_quiet fun s hs => ?_
  cases f with
  | false => cases hs
  | true =>
      rw [List.mem_singleton.1 hs]
      rfl

theorem resumed_enter {f : Bool} {l : String} : Resumed (enter f l) :=
  resumed_jump.append (.cons rfl .nil)

mutual

theorem lowerStmt_resumed {scope : Scope} {f : Bool} {c : Stretch} {n n' : Names} :
    (s : Stmt) → lowerStmt scope f s n = .ok c n' → Resumed c.code
  | .simple (.yield x) share, h => by
      simp only [lowerStmt, bind_eq_ok, pure_eq_ok] at h
      obtain ⟨k, _, hdraw, rfl, rfl⟩ := h
      exact .yield (.cons rfl .nil)
  | .simple (.expr x) share, h | .simple (.ret x) share, h | .simple (.delete x) share, h
  | .simple (.throw x) share, h | .simple (.assert x _) share, h | .simple (.log x) share, h
  | .simple .debugger share, h | .simple (.super _ x) share, h => by
      obtain ⟨rfl, rfl⟩ := pure_eq_ok.1 h
      exact .cons rfl .nil
  | .breakTo l, h => by
      simp only [lowerStmt, bind_eq_ok, pure_eq_ok, lift_eq_ok] at h
      obtain ⟨target, _, -, rfl, rfl⟩ := h
      exact .cons rfl .nil
  | .continueTo l, h => by
      simp only [lowerStmt, bind_eq_ok, pure_eq_ok, lift_eq_ok] at h
      obtain ⟨target, _, -, rfl, rfl⟩ := h
      exact .cons rfl .nil
  | .ifElse c thenS elseS, h => by
      simp only [lowerStmt, bind_eq_ok, pure_eq_ok] at h
      obtain ⟨k, n₁, -, thenC, n₂, hthen, elseC, n₃, helse, rfl, rfl⟩ := h
      refine .append (.append (.append (.append (.append (.append resumed_enter ?_)
        (lowerList_resumed thenS hthen)) resumed_jump) ?_) (lowerList_resumed elseS helse))
        resumed_enter
      · exact .cons rfl (.cons rfl .nil)
      · exact .cons rfl .nil
  | .whileLoop c body l, h => by
      simp only [lowerStmt, bind_eq_ok, pure_eq_ok] at h
      obtain ⟨k, n₁, -, bodyC, n₂, hbody, rfl, rfl⟩ := h
      refine .append (.append (.append (.append resumed_enter ?_) (lowerList_resumed body hbody))
        resumed_jump) ?_
      · exact .cons rfl (.cons rfl .nil)
      · exact .cons rfl .nil
  | .doWhile c body l, h => by
      simp only [lowerStmt, bind_eq_ok, pure_eq_ok] at h
      obtain ⟨k, n₁, -, bodyC, n₂, hbody, rfl, rfl⟩ := h
      exact .append (.append (.append resumed_enter (lowerList_resumed body hbody)) resumed_enter)
        (.cons rfl (.cons rfl .nil))
  | .forLoop init cond post body l, h => by
      simp only [lowerStmt, bind_eq_ok, pure_eq_ok] at h
      obtain ⟨k, n₁, -, bodyC, n₂, hbody, rfl, rfl⟩ := h
      have heach (x : Expr) : Resumed (if x.isMissing then [] else [.expr x]) := by
        split
        · exact .nil
        · exact .cons rfl .nil
      refine .append (.append (.append (.append (.append (.append (.append resumed_enter (heach init))
        resumed_enter) ?_) (lowerList_resumed body hbody)) resumed_enter) (heach post)) ?_
      · exact .cons (by split <;> rfl) (.cons rfl .nil)
      · exact .cons rfl (.cons rfl .nil)
  | .switch x body l, h => by
      simp only [lowerStmt, bind_eq_ok, pure_eq_ok, lift_eq_ok] at h
      obtain ⟨k, n₁, -, as, n₂, -, bodyC, n₃, hbody, rfl, rfl⟩ := h
      refine .append (.append (.append resumed_enter ?_) (lowerCases_resumed body hbody)) resumed_enter
      exact .cons rfl (.cons rfl .nil)
  | .forIn .., h | .tryCatch .., h | .catchClause _, h | .label _, h | .goto _, h
  | .condGoto .., h | .dispatch .., h | .caseMark _, h | .defaultMark, h | .missing, h => by cases h

theorem lowerList_resumed {scope : Scope} {f : Bool} {c : Stretch} {n n' : Names} :
    (body : List Stmt) → lowerList scope f body n = .ok c n' → Resumed c.code
  | [], h => by
      obtain ⟨rfl, rfl⟩ := pure_eq_ok.1 h
      exact .nil
  | s :: rest, h => by
      simp only [lowerList, bind_eq_ok, pure_eq_ok] at h
      obtain ⟨first, n₁, hfirst, others, n₂, hothers, rfl, rfl⟩ := h
      exact (lowerStmt_resumed s hfirst).append (lowerList_resumed rest hothers)

theorem lowerCases_resumed {scope : Scope} {id ordinal : Nat} {f : Bool} {c : Stretch}
    {n n' : Names} : (body : List Stmt) → lowerCases scope id ordinal f body n = .ok c n' →
    Resumed c.code
  | [], h => by
      obtain ⟨rfl, rfl⟩ := pure_eq_ok.1 h
      exact .nil
  | s :: rest, h => by
      cases hs : s.isCaseMark with
      | false =>
          simp only [lowerCases_cons hs, bind_eq_ok, pure_eq_ok] at h
          obtain ⟨first, n₁, hfirst, others, n₂, hothers, rfl, rfl⟩ := h
          exact (lowerStmt_resumed s hfirst).append (lowerCases_resumed rest hothers)
      | true =>
          cases s
          case caseMark x =>
              simp only [lowerCases, bind_eq_ok, pure_eq_ok] at h
              obtain ⟨others, n₁, hothers, rfl, rfl⟩ := h
              exact resumed_enter.append (lowerCases_resumed rest hothers)
          case defaultMark =>
              simp only [lowerCases, bind_eq_ok, pure_eq_ok] at h
              obtain ⟨others, n₁, hothers, rfl, rfl⟩ := h
              exact resumed_enter.append (lowerCases_resumed rest hothers)
          all_goals cases hs

end

/-- Every yield of a lowered body stands right before a jump. -/
theorem ofBody_resumed {body code : List Stmt} {n n' : Names} (h : ofBody body n = .ok code n') :
    Resumed code := by
  unfold ofBody at h
  obtain ⟨c, n₁, hlist, hcode⟩ := bind_eq_ok.1 h
  obtain ⟨rfl, rfl⟩ := pure_eq_ok.1 hcode
  have hstart : Resumed [.goto Label.begin, .label Label.begin] := .cons rfl (.cons rfl .nil)
  exact (hstart.append (lowerList_resumed body hlist)).append resumed_enter

end JumpCode

end Resumable
