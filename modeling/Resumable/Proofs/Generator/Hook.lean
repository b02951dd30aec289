import Resumable.Lowering.Generator
import Resumable.Proofs.Jump.Upkeep

/-!
# Compiled fragments of generators

What compiling makes of the statements of a fragment: yields become settings of
fields, returns become jumps to the end, and everything else stays.
-/

namespace Resumable.Generator

section

variable {types : TypeTable} {object : Variable} {f : Fragment}

theorem jumpTarget?_eq_some {s : Stmt} {v : Variable} (h : f.jumpTarget? s = some v) :
    ∃ t share, s = .simple (.ret (.call (.ref v) [] t)) share := by
  unfold Fragment.jumpTarget? at h
  split at h
  · split at h
    · split at h
      · cases h
        exact ⟨_, _, rfl⟩
      · cases h
    · cases h
  · cases h

theorem bodyLiterals_setField (field : String) (x : Expr) :
    bodyLiterals [setField types object field x] = x.literals := by
  simp [setField, Simple.slots, Expr.mkProperty]

variable {β : Type} {pick : Expr → Option β} (hpick : Expr.Overlooks pick)

include hpick

theorem bodyPicks_setField (field : String) (x : Expr) :
    bodyPicks pick [setField types object field x] = x.nodes.filterMap pick := by
  simp [setField, Simple.slots, Expr.mkProperty, Expr.nodes, hpick.setting, hpick.property, hpick.ref]

theorem bodyPicks_compileYield {stmts stmts' : List Stmt} {n : Nat}
    (h : compileYield types object f stmts = .ok (stmts', n)) :
    bodyPicks pick stmts' = bodyPicks pick stmts := by
  fun_induction compileYield types object f stmts generalizing stmts' n with
  | case1 x share after next hnext =>
      cases h
      obtain ⟨t, share', rfl⟩ := jumpTarget?_eq_some hnext
      rw [bodyPicks_cons, bodyPicks_setField hpick, bodyPicks_setField hpick]
      simp [Simple.slots, Expr.nodes, Expr.nodesList, hpick.ref, hpick.call]
  | case2 => cases h
  | case3 s rest hne ih =>
      obtain ⟨⟨rest', m⟩, hrest, hpure⟩ := except_bind_eq_ok.1 h
      cases hpure
      rw [bodyPicks_cons pick s rest', bodyPicks_cons pick s rest, ih hrest]
  | case4 =>
      cases h
      rfl

theorem bodyPicks_compileReturn {finish : Variable} {s s' : Stmt}
    (h : compileReturn f finish s = .ok s') : bodyPicks pick [s'] = bodyPicks pick [s] := by
  unfold compileReturn at h
  split at h
  · cases h
  · next x share =>
      split at h
      · cases h
        rfl
      · split at h
        · next hx =>
            cases h
            cases x with
            | missing =>
                simp [Simple.slots, Expr.mkCall, Expr.nodes, Expr.nodesList, hpick.ref, hpick.call]
            | _ => cases hx
        · cases h
  · cases h
    rfl

theorem bodyPicks_mapM_compileReturn {finish : Variable} {stmts stmts' : List Stmt}
    (h : stmts.mapM (compileReturn f finish) = .ok stmts') :
    bodyPicks pick stmts' = bodyPicks pick stmts := by
  induction stmts generalizing stmts' with
  | nil =>
      cases h
      rfl
  | cons s rest ih =>
      rw [List.mapM_cons] at h
      obtain ⟨s', hs, h⟩ := except_bind_eq_ok.1 h
      obtain ⟨rest', hrest, hpure⟩ := except_bind_eq_ok.1 h
      cases hpure
      rw [bodyPicks_cons pick s' rest', bodyPicks_cons pick s rest, bodyPicks_compileReturn hpick hs,
        ih hrest]

end

/-- Compiling a fragment adds nothing but calls, fields and objects. -/
theorem faithful_hook (object : Variable) (stop : ClassId) :
    Elimination.Hook.Faithful (hook object stop) := by
  intro β pick hpick p f n body n' h
  unfold hook at h
  split at h
  · next hcompile =>
      cases h
      unfold compileFragment at hcompile
      split at hcompile
      · cases hcompile
      · split at hcompile
        · cases hcompile
          rw [bodyPicks_append, bodyPicks_cons, bodyPicks_setField hpick]
          simp [Simple.slots, Expr.nodes, Expr.nodesList, hpick.ref, hpick.construct]
        · obtain ⟨⟨stmts, yields⟩, hyield, hrest⟩ := except_bind_eq_ok.1 hcompile
          obtain ⟨body', hreturn, hpure⟩ := except_bind_eq_ok.1 hrest
          cases hpure
          exact (bodyPicks_mapM_compileReturn hpick hreturn).trans
            (bodyPicks_compileYield hpick hyield)
  · cases h

end Resumable.Generator
