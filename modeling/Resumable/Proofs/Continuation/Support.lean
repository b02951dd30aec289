import Resumable.Proofs.Arena.Sharing
import Resumable.Proofs.Continuation.Upkeep
import Resumable.Proofs.Jump.Adoption

/-!
# Which expressions can be converted

The conversion of an expression stops at the first node that it has no form for.
Main statement: it succeeds exactly if there is no such node, and otherwise its
failure is that of the node it stops at. No move of a closure on the way is ever
refused.
-/

namespace Resumable

namespace Expr

/-- Nothing is missing where an expression should stand. -/
def Complete (e : Expr) : Prop :=
  e.isMissing = false ∧ ∀ n ∈ e.nodes, ∀ c ∈ n.children, c.isMissing = false

theorem nodes_eq {e : Expr} (h : e.isMissing = false) :
    e.nodes = e :: e.children.flatMap nodes := by
  cases e with
  | missing => cases h
  | _ => simp [nodes, children, nodesList_eq_flatMap]

theorem Complete.child {e c : Expr} (h : e.Complete) (hc : c ∈ e.children) : c.Complete := by
  have hnodes := nodes_eq h.1
  refine ⟨h.2 e (hnodes ▸ .head _) c hc, fun n hn => h.2 n ?_⟩
  rw [hnodes]
  exact .tail _ (List.mem_flatMap.2 ⟨c, hc, hn⟩)

end Expr

namespace Continuation

/-! ## Nodes that the conversion has no form for -/

mutual

/-- The node that the conversion of an expression stops at. Operands are
converted from the last to the first, and the branches of a choice before its
condition. The call of a method is refused before its callee is looked at. -/
def stop? : Expr → Option Expr
  | .unary op x t => if isRefused (.unary op x t) then some (.unary op x t) else stop? x
  | .binary _ x y _ => (stop? y).or (stop? x)
  | .conditional c thenE elseE _ => (stop? thenE).or ((stop? elseE).or (stop? c))
  | .assign target value =>
      if isRefused (.assign target value) then some (.assign target value) else stop? value
  | .call callee args t =>
      if isRefused (.call callee args t) then some (.call callee args t)
      else (stopLast? args).or (stop? callee)
  | .property x name t =>
      if isRefused (.property x name t) then some (.property x name t) else stop? x
  | .construct cls args => some (.construct cls args)
  | .literal .. | .ref _ | .receiver _ | .lambda .. | .missing => none

def stopLast? : List Expr → Option Expr
  | [] => none
  | e :: es => (stopLast? es).or (stop? e)

end

theorem stop?_of_refused {e : Expr} (h : isRefused e = true) : stop? e = some e := by
  cases e with
  | construct => rfl
  | unary | assign | call | property => rw [stop?, if_pos h]
  | _ => cases h

theorem stopLast?_eq_none {es : List Expr} : stopLast? es = none ↔ ∀ e ∈ es, stop? e = none := by
  induction es with
  | nil => simp [stopLast?]
  | cons e es ih => simp [stopLast?, ih, and_comm]

theorem exists_of_stopLast? {es : List Expr} {n : Expr} (h : stopLast? es = some n) :
    ∃ e ∈ es, stop? e = some n := by
  induction es with
  | nil => cases h
  | cons e es ih =>
      rcases Option.or_eq_some_iff.1 h with h | ⟨-, h⟩
      · obtain ⟨x, hx, hn⟩ := ih h
        exact ⟨x, .tail _ hx, hn⟩
      · exact ⟨e, .head _, h⟩

/-- The conversion of a node that is not refused stops in one of its parts. -/
theorem stop?_eq_none_of_children {e : Expr} (h : isRefused e = false) :
    stop? e = none ↔ ∀ c ∈ e.children, stop? c = none := by
  cases e with
  | unary | property => simp [stop?, h, Expr.children]
  | binary => simp [stop?, Expr.children, and_comm]
  | conditional => simp [stop?, Expr.children, and_comm, and_left_comm]
  | call => simp [stop?, h, Expr.children, stopLast?_eq_none, and_comm]
  | assign target value =>
      cases target with
      | ref => simp [stop?, h, Expr.children]
      | _ => cases h
  | construct => cases h
  | _ => simp [stop?, Expr.children]

theorem exists_of_stop? {e n : Expr} (h : isRefused e = false) (hn : stop? e = some n) :
    ∃ c ∈ e.children, stop? c = some n := by
  cases e with
  | unary op x t | property x name t =>
      rw [stop?, if_neg (by simp [h])] at hn
      exact ⟨x, .head _, hn⟩
  | assign target value =>
      rw [stop?, if_neg (by simp [h])] at hn
      exact ⟨value, .tail _ (.head _), hn⟩
  | call callee args t =>
      rw [stop?, if_neg (by simp [h]), Option.or_eq_some_iff] at hn
      rcases hn with hn | ⟨-, hn⟩
      · obtain ⟨x, hx, hn⟩ := exists_of_stopLast? hn
        exact ⟨x, .tail _ hx, hn⟩
      · exact ⟨callee, .head _, hn⟩
  | binary op x y t =>
      rw [stop?, Option.or_eq_some_iff] at hn
      rcases hn with hn | ⟨-, hn⟩
      · exact ⟨y, .tail _ (.head _), hn⟩
      · exact ⟨x, .head _, hn⟩
  | conditional c thenE elseE t =>
      rw [stop?, Option.or_eq_some_iff, Option.or_eq_some_iff] at hn
      rcases hn with hn | ⟨-, hn | ⟨-, hn⟩⟩
      · exact ⟨thenE, .tail _ (.head _), hn⟩
      · exact ⟨elseE, .tail _ (.tail _ (.head _)), hn⟩
      · exact ⟨c, .head _, hn⟩
  | construct => cases h
  | _ => cases hn

/-- The conversion stops at a node of the expression that it refuses. -/
theorem stop?_eq_some {n : Expr} (e : Expr) (hn : stop? e = some n) :
    n ∈ e.nodes ∧ isRefused n = true := by
  induction e using Expr.children_induction with
  | h e ih =>
    have hthere : e.isMissing = false := by
      cases e with
      | missing => cases hn
      | _ => rfl
    rw [Expr.nodes_eq hthere]
    cases h : isRefused e with
    | true =>
        cases (stop?_of_refused h).symm.trans hn
        exact ⟨.head _, h⟩
    | false =>
        obtain ⟨c, hc, hstop⟩ := exists_of_stop? h hn
        exact (ih c hc hstop).imp_left fun hmem => .tail _ (List.mem_flatMap.2 ⟨c, hc, hmem⟩)

theorem stop?_eq_none_iff {e : Expr} :
    stop? e = none ↔ ∀ n ∈ e.nodes, isRefused n = false := by
  induction e using Expr.children_induction with
  | h e ih =>
    cases hmissing : e.isMissing with
    | true =>
        cases e with
        | missing => simp [stop?, Expr.nodes]
        | _ => cases hmissing
    | false =>
        rw [Expr.nodes_eq hmissing, List.forall_mem_cons]
        cases h : isRefused e with
        | true => simp [stop?_of_refused h]
        | false =>
            rw [stop?_eq_none_of_children h, forall₂_congr ih]
            simp only [List.mem_flatMap, forall_exists_index, and_imp, true_and]
            exact ⟨fun h n c hc hn => h c hc n hn, fun h c hc n hn => h n c hc hn⟩

theorem Whole.stop?_eq {e : Expr} (h : Whole e) : stop? e = none := by
  cases h with
  | incDec v t hop => simp [stop?, isRefused, Expr.isLocal]
  | _ => rfl

theorem Operates.stop?_eq {e : Expr} {task : Task} {es : List Expr} (h : Operates e task es)
    (he : isRefused e = false) : stop? e = stopLast? es := by
  cases h <;> simp [stop?, stopLast?, he]

theorem Chooses.stop?_eq {e x : Expr} {task : Task} {yes no : Option Expr}
    (h : Chooses e task x yes no) : stop? e = ((yes.bind stop?).or (no.bind stop?)).or (stop? x) := by
  cases h <;> simp [stop?, Option.or_assoc]

/-! ## Moves of closures -/

/-- A conversion is under way: some continuations are begun and belong to the
owner, and the definitions in hand can be moved to them. -/
structure Bench (p : Program) (owner : FuncId) (opened free : List FuncId) : Prop
    extends p.Hosts owner free where
  nodup : opened.Nodup
  begun : ∀ b ∈ opened, (p.func? b).isSome ∧ p.parent b = owner ∧ b ∉ free

namespace Bench

variable {p q : Program} {owner : FuncId} {begun hand hand' : List FuncId}

theorem fewer (h : Bench p owner begun hand) (hsub : hand' ⊆ hand) :
    Bench p owner begun hand' where
  toHosts := h.toHosts.fewer hsub
  nodup := h.nodup
  begun b hb := ⟨(h.begun b hb).1, (h.begun b hb).2.1, fun hmem => (h.begun b hb).2.2 (hsub hmem)⟩

theorem of_funcs (h : Bench p owner begun hand) (hq : q.funcs = p.funcs) :
    Bench q owner begun hand where
  toHosts := h.toHosts.of_funcs hq
  nodup := h.nodup
  begun b hb := by
    have hfunc : q.func? b = p.func? b := by rw [Program.func?, Program.func?, hq]
    rw [Program.parent_eq_getD, hfunc, ← Program.parent_eq_getD]
    exact h.begun b hb

theorem modifyFunc (h : Bench p owner begun hand) {change : Func → Func}
    (hparent : ∀ f, (change f).parent = f.parent)
    (hclosures : ∀ f, (change f).closures = f.closures) (fn : FuncId) :
    Bench (p.modifyFunc fn change) owner begun hand where
  toHosts := h.toHosts.modifyFunc hparent hclosures fn
  nodup := h.nodup
  begun b hb := by
    rw [Program.isSome_func?_modifyFunc, Program.parent_modifyFunc hparent]
    exact h.begun b hb

/-- A new definition is begun. -/
theorem newFunc (h : Bench p owner begun hand) (name : String) (params : List Variable)
    (result : Ty) :
    Bench (p.newFunc owner name params result).2 owner ((p.size + 1) :: begun) hand := by
  obtain ⟨hhosts, hknown, hparent, hnew⟩ := h.toHosts.newFunc name params result
  have hne (b : FuncId) (hb : b ∈ begun) : b ≠ p.size + 1 := by
    rintro rfl
    have hle := (Program.isSome_func?.1 (h.begun _ hb).1).2
    omega
  refine ⟨hhosts, List.nodup_cons.2 ⟨fun hmem => hne _ hmem rfl, h.nodup⟩,
    List.forall_mem_cons.2 ⟨⟨hknown, hparent, hnew⟩, fun b hb => ?_⟩⟩
  obtain ⟨hold, hb', hfree⟩ := h.begun b hb
  rw [Program.parent_newFunc, if_neg (hne b hb), Program.isSome_func?, Program.newFunc_size]
  have hbounds := Program.isSome_func?.1 hold
  exact ⟨by omega, hb', hfree⟩

/-- A definition that is begun takes over one of those in hand. -/
theorem moveTo (h : Bench p owner begun hand) {fn c : FuncId} (hfn : fn ∈ begun) (hc : c ∈ hand) :
    p.reparent c fn = .ok (p.moveTo c fn) ∧ Bench (p.moveTo c fn) owner begun hand := by
  have hne (b : FuncId) (hb : b ∈ begun) : b ≠ c := by
    rintro rfl
    exact (h.begun b hb).2.2 hc
  obtain ⟨hknown, hparent, -⟩ := h.begun fn hfn
  obtain ⟨hmove, hhosts, -⟩ := h.toHosts.moveTo hknown hparent hc (hne fn hfn).symm
  refine ⟨hmove, hhosts, h.nodup, fun b hb => ?_⟩
  rw [Program.isSome_func?_moveTo, Program.parent_moveTo (h.hand c hc).1, if_neg (hne b hb)]
  exact h.begun b hb

/-- A definition that is finished comes to hand. -/
theorem close {fn : FuncId} (h : Bench p owner (fn :: begun) hand) :
    Bench p owner begun (fn :: hand) := by
  obtain ⟨hnot, hnodup⟩ := List.nodup_cons.1 h.nodup
  obtain ⟨⟨hknown, hparent, -⟩, hbegun⟩ := List.forall_mem_cons.1 h.begun
  have habove : fn ∉ p.chain owner := by
    have hchain := Program.nodup_chainFrom h.forest (p.funcs.size + 1) fn
    rw [← Program.chain, h.forest.chain_eq (by rintro rfl; cases hknown), hparent] at hchain
    exact (List.nodup_cons.1 hchain).1
  refine ⟨⟨h.forest, h.known, List.forall_mem_cons.2 ⟨⟨hknown, habove⟩, h.hand⟩⟩, hnodup,
    fun b hb => ⟨(hbegun b hb).1, (hbegun b hb).2.1, ?_⟩⟩
  rw [List.mem_cons, not_or]
  refine ⟨?_, (hbegun b hb).2.2⟩
  rintro rfl
  exact hnot hb

end Bench

/-! ## Steps of a conversion -/

section

variable {owner : FuncId} {begun hand : List FuncId} {w : Workspace}

theorem freshVariable_ok (h : Bench w.program owner begun hand) (type : Ty) :
    ∃ v w', Lowering.freshVariable type w = .ok v w' ∧ Bench w'.program owner begun hand :=
  ⟨_, _, rfl, h.of_funcs rfl⟩

theorem freshLocal_ok (h : Bench w.program owner begun hand) (id : FuncId) (type : Ty) :
    ∃ v w', Lowering.freshLocal id type w = .ok v w' ∧ Bench w'.program owner begun hand := by
  obtain ⟨v, w', hv, hw'⟩ := freshVariable_ok h type
  exact ⟨v, _, (bind_of_ok hv).trans (bind_of_ok rfl), hw'.modifyFunc (by intro f; rfl)
    (by intro f; rfl) id⟩

theorem begin_ok (h : Bench w.program owner begun hand) (param : Variable) (result : Ty) :
    ∃ id w', begin owner param result w = .ok id w' ∧ Bench w'.program owner (id :: begun) hand :=
  ⟨_, _, rfl, h.newFunc "" [param] result⟩

theorem finish_ok {id : FuncId} (h : Bench w.program owner (id :: begun) hand) (body : List Stmt)
    (hbody : bodyLiterals body ⊆ hand) :
    ∃ w', finish id body w = .ok () w' ∧ Bench w'.program owner begun (id :: hand) := by
  obtain ⟨n, w', hadopt, hw'⟩ := Lowering.adoptBody_ok .cps "adopting continuation closure" id body
    (I := fun p => Bench p owner (id :: begun) hand)
    (h.modifyFunc (by intro f; rfl) (by intro f; rfl) id)
    fun p hp c hc => hp.moveTo (.head _) (hbody hc)
  exact ⟨w', bind_of_ok hadopt, hw'.close⟩

theorem lambda_ok (id : FuncId) (w : Workspace) :
    ∃ t, Lowering.lambda id w = .ok (.lambda id t) w := by
  change ∃ t, EStateM.Result.ok (w.program.lambda id) w = .ok (.lambda id t) w
  unfold Program.lambda
  split <;> exact ⟨_, rfl⟩

theorem make_ok (h : Bench w.program owner begun hand) (param : Variable) {body : Expr}
    (hbody : body.literals ⊆ hand) :
    ∃ fn t w', make owner param body w = .ok (.lambda fn t) w' ∧
      Bench w'.program owner begun (fn :: hand) := by
  obtain ⟨id, w₁, hbegin, hw₁⟩ := begin_ok h param body.type
  obtain ⟨w₂, hfinish, hw₂⟩ := finish_ok hw₁ [.ret body]
    (by simpa [Simple.slots] using hbody)
  obtain ⟨t, hlambda⟩ := lambda_ok id w₂
  exact ⟨id, t, w₂, (bind_of_ok hbegin).trans ((bind_of_ok hfinish).trans hlambda), hw₂⟩

/-- A shared continuation brings no literals that are not in hand. -/
theorem share_ok (h : Bench w.program owner begun hand) (id : FuncId) {k : Option Expr}
    (hk : handed k ⊆ hand) :
    ∃ r w', share id k w = .ok r w' ∧ Bench w'.program owner begun hand ∧
      handed r.2 ⊆ hand ∧ bodyLiterals r.1 ⊆ hand := by
  unfold share
  split
  · next fn t =>
      obtain ⟨v, w', hv, hw'⟩ := freshLocal_ok h id t
      refine ⟨_, w', bind_of_ok hv, hw', List.nil_subset _, ?_⟩
      simpa [Stmt.setVar, Simple.slots, handed] using hk
  · exact ⟨_, w, rfl, h, hk, List.nil_subset _⟩

theorem parameters_ok (h : Bench w.program owner begun hand) (es : List Expr) :
    ∃ ps w', parameters es w = .ok ps w' ∧ ps.length = es.length ∧
      Bench w'.program owner begun hand := by
  induction es generalizing w with
  | nil => exact ⟨[], w, rfl, rfl, h⟩
  | cons e es ih =>
      obtain ⟨v, w₁, hv, hw₁⟩ := freshVariable_ok h e.type
      obtain ⟨ps, w₂, hps, hlength, hw₂⟩ := ih hw₁
      exact ⟨v :: ps, w₂, (bind_of_ok hv).trans (bind_of_ok hps), congrArg (· + 1) hlength, hw₂⟩

end

/-! ## Expressions -/

/-- The work comes to an expression whose literals can be moved, or else stops
at a node. -/
def Reaches (owner : FuncId) (begun hand : List FuncId) (m : Lowering Expr) (w : Workspace) :
    Option Expr → Prop
  | none => ∃ e w', m w = .ok e w' ∧ Bench w'.program owner begun (e.literals ++ hand)
  | some n => ∃ w', m w = .error (refusal n) w'

namespace Reaches

variable {owner : FuncId} {begun hand hand' : List FuncId} {m : Lowering Expr} {w : Workspace}
  {stop stop' : Option Expr}

theorem fewer (h : Reaches owner begun hand m w stop) (hsub : hand' ⊆ hand) :
    Reaches owner begun hand' m w stop := by
  cases stop with
  | some n => exact h
  | none =>
      obtain ⟨e, w', hm, hw'⟩ := h
      exact ⟨e, w', hm, hw'.fewer (List.append_subset.2 ⟨List.subset_append_left ..,
        List.Subset.trans hsub (List.subset_append_right ..)⟩)⟩

/-- The first of two pieces of work decides if it stops. -/
theorem bind {f : Expr → Lowering Expr} (h : Reaches owner begun hand m w stop)
    (hf : ∀ e w', Bench w'.program owner begun (e.literals ++ hand) →
      Reaches owner begun hand (f e) w' stop') :
    Reaches owner begun hand (m >>= f) w (stop.or stop') := by
  cases stop with
  | some n =>
      obtain ⟨w', hm⟩ := h
      exact ⟨w', bind_of_error hm⟩
  | none =>
      obtain ⟨e, w', hm, hw'⟩ := h
      have hrest := hf e w' hw'
      cases stop' with
      | some n =>
          obtain ⟨w'', hrest⟩ := hrest
          exact ⟨w'', (bind_of_ok hm).trans hrest⟩
      | none =>
          obtain ⟨e', w'', hrest, hw''⟩ := hrest
          exact ⟨e', w'', (bind_of_ok hm).trans hrest, hw''⟩

/-- Work that ends with a step which cannot stop. -/
theorem andThen {f : Expr → Lowering Expr} (h : Reaches owner begun hand m w stop)
    (hf : ∀ e w', ∃ e', f e w' = .ok e' w' ∧ e'.literals ⊆ e.literals ++ hand) :
    Reaches owner begun hand (m >>= f) w stop := by
  rw [← Option.or_none (o := stop)]
  refine h.bind fun e w' hw' => ?_
  obtain ⟨e', hrun, hsub⟩ := hf e w'
  exact ⟨e', w', hrun, hw'.fewer (List.append_subset.2 ⟨hsub, List.subset_append_right ..⟩)⟩

theorem after_ok {α : Type} {x : Lowering α} {f : α → Lowering Expr} {a : α} {w' : Workspace}
    (hx : x w = .ok a w') (h : Reaches owner begun hand (f a) w' stop) :
    Reaches owner begun hand (x >>= f) w stop := by
  cases stop with
  | some n =>
      obtain ⟨w'', hf⟩ := h
      exact ⟨w'', (bind_of_ok hx).trans hf⟩
  | none =>
      obtain ⟨e, w'', hf, hw''⟩ := h
      exact ⟨e, w'', (bind_of_ok hx).trans hf, hw''⟩

end Reaches

def Decides (owner : FuncId) (e : Expr) : Prop :=
  ∀ k begun hand w, Bench w.program owner begun hand → e.literals ⊆ hand → handed k ⊆ hand →
    Reaches owner begun hand (convert owner e k) w (stop? e)

section

variable {owner : FuncId} {begun hand : List FuncId} {w : Workspace}

theorem reaches_deliver (h : Bench w.program owner begun hand) {k : Option Expr} {e : Expr}
    (he : e.literals ⊆ hand) (hk : handed k ⊆ hand) :
    Reaches owner begun hand (pure (deliver k e)) w none := by
  refine ⟨deliver k e, w, rfl, h.fewer ?_⟩
  rw [literals_deliver, List.append_subset, List.append_subset]
  exact ⟨⟨hk, he⟩, List.Subset.refl _⟩

/-- An operand goes to a continuation that was made for it. -/
theorem reaches_passed {x : Expr} (hx : Decides owner x) (h : Bench w.program owner begun hand)
    (p : Variable) {body : Expr} (hbody : body.literals ⊆ hand) (hlits : x.literals ⊆ hand) :
    Reaches owner begun hand (do
      let c ← make owner p body
      convert owner x (some c)) w (stop? x) := by
  obtain ⟨fn, t, w₁, hmake, hw₁⟩ := make_ok h p hbody
  refine .after_ok hmake (.fewer (hx _ _ _ _ hw₁ ?_ ?_) (List.subset_cons_self fn hand))
  · exact List.Subset.trans hlits (List.subset_cons_self fn hand)
  · simp [handed]

theorem reaches_row {es : List Expr} (hes : ∀ e ∈ es, Decides owner e) {qs : List Variable}
    {inner : Expr} (hlength : qs.length = es.length) (h : Bench w.program owner begun hand)
    (hlits : es.flatMap Expr.literals ⊆ hand) (hinner : inner.literals ⊆ hand) :
    Reaches owner begun hand (convertArgs owner es qs inner) w (stopLast? es) := by
  induction es generalizing qs with
  | nil =>
      simp only [convertArgs, stopLast?]
      exact ⟨inner, w, rfl, h.fewer (List.append_subset.2 ⟨hinner, List.Subset.refl _⟩)⟩
  | cons e es ih =>
      cases qs with
      | nil => cases hlength
      | cons q qs =>
          simp only [convertArgs, stopLast?]
          rw [List.flatMap_cons, List.append_subset] at hlits
          obtain ⟨he, hes⟩ := List.forall_mem_cons.1 hes
          refine (ih hes (Nat.succ.inj hlength) hlits.2).bind fun rest w₁ hw₁ => ?_
          refine (reaches_passed he hw₁ q (List.subset_append_left ..) ?_).fewer
            (List.subset_append_right ..)
          exact List.Subset.trans hlits.1 (List.subset_append_right ..)

theorem reaches_way {o : Option Expr} (ho : ∀ y ∈ o, Decides owner y)
    (h : Bench w.program owner begun hand) (hlits : handed o ⊆ hand) (q : Variable)
    {shared : Option Expr} (hshared : handed shared ⊆ hand) :
    Reaches owner begun hand (convertWay owner q shared o) w (o.bind stop?) := by
  cases o with
  | none => exact reaches_deliver h (by simp) hshared
  | some y => exact ho y rfl _ _ _ _ h hlits hshared

theorem reaches_ways {yes no : Option Expr} (hyes : ∀ y ∈ yes, Decides owner y)
    (hno : ∀ y ∈ no, Decides owner y) (h : Bench w.program owner begun hand)
    (hlits : handed yes ++ handed no ⊆ hand) (id : FuncId) (q : Variable) {shared : Option Expr}
    (hshared : handed shared ⊆ hand) :
    Reaches owner begun hand (convertWays owner yes no id q shared) w
      ((yes.bind stop?).or (no.bind stop?)) := by
  rw [List.append_subset] at hlits
  refine (reaches_way hyes h hlits.1 q hshared).bind fun a w₁ hw₁ => ?_
  have hmore : hand ⊆ a.literals ++ hand := List.subset_append_right ..
  refine .fewer (.andThen (reaches_way hno hw₁ (List.Subset.trans hlits.2 hmore) q
    (List.Subset.trans hshared hmore)) fun b w₂ => ⟨_, rfl, ?_⟩) hmore
  simp [List.subset_append_of_subset_right]

/-- A choice between two ways on, which share their continuation. -/
theorem reaches_choice {c : Expr} (hc : Decides owner c) {yes no : Option Expr}
    (hyes : ∀ y ∈ yes, Decides owner y) (hno : ∀ y ∈ no, Decides owner y)
    (h : Bench w.program owner begun hand) {k : Option Expr} (hk : handed k ⊆ hand)
    (hlits : c.literals ⊆ hand) (hways : handed yes ++ handed no ⊆ hand) (result : Ty) :
    Reaches owner begun hand (convertChoice owner c k result (convertWays owner yes no)) w
      (((yes.bind stop?).or (no.bind stop?)).or (stop? c)) := by
  obtain ⟨p, w₁, hp, hw₁⟩ := freshVariable_ok h c.type
  obtain ⟨id, w₂, hid, hw₂⟩ := begin_ok hw₁ p result
  obtain ⟨r, w₃, hr, hw₃, hshared, hprologue⟩ := share_ok hw₂ id hk
  obtain ⟨prologue, shared⟩ := r
  refine .after_ok hp (.after_ok hid (.after_ok hr ?_))
  have hreached := reaches_ways hyes hno hw₃ hways id p hshared
  cases hstop : (yes.bind stop?).or (no.bind stop?) with
  | some n =>
      rw [hstop] at hreached
      obtain ⟨w', herror⟩ := hreached
      exact ⟨w', bind_of_error herror⟩
  | none =>
      rw [hstop] at hreached
      obtain ⟨e, w₄, he, hw₄⟩ := hreached
      have hbody : bodyLiterals (prologue ++ [.ret e]) ⊆ e.literals ++ hand := by
        simp only [bodyLiterals_append, bodyLiterals_simple, Simple.slots, List.flatMap_cons,
          List.flatMap_nil, List.append_nil, bodyLiterals_nil, List.append_subset]
        exact ⟨List.Subset.trans hprologue (List.subset_append_right ..),
          List.subset_append_left ..⟩
      obtain ⟨w₅, hfinish, hw₅⟩ := finish_ok hw₄ _ hbody
      obtain ⟨t, hlambda⟩ := lambda_ok id w₅
      refine .after_ok he (.after_ok hfinish (.after_ok hlambda ?_))
      have hmore : hand ⊆ id :: (e.literals ++ hand) :=
        List.subset_cons_of_subset id (List.subset_append_right ..)
      refine .fewer (hc _ _ _ _ hw₅ (List.Subset.trans hlits hmore) ?_) hmore
      simp [handed]

end

/-- Every conversion stops where it is said to. -/
theorem decides_of_complete (owner : FuncId) (e : Expr) (h : e.Complete) : Decides owner e := by
  induction e using Expr.children_induction with
  | h e ih =>
    intro k begun hand w hw he hk
    have hparts (x : Expr) (hx : x ∈ e.children) : Decides owner x := ih x hx (h.child hx)
    cases treated owner e with
    | refused hrefused heq =>
        rcases hrefused with hrefused | rfl
        · rw [stop?_of_refused hrefused, heq]
          exact ⟨w, rfl⟩
        · -- an expression without gaps is not missing itself
          cases h.1
    | whole hwhole heq =>
        rw [hwhole.stop?_eq, heq]
        exact reaches_deliver hw he hk
    | @operates task es hop hplain heq =>
        rw [hop.stop?_eq hplain, heq]
        obtain ⟨qs, w₁, hqs, hlength, hw₁⟩ := parameters_ok hw es
        refine .after_ok hqs (reaches_row (fun x hx => hparts x (hop.mem_children hx)) hlength hw₁
          (hop.literals_eq ▸ he) ?_)
        simpa [literals_deliver, hop.literals_rebuilt hlength] using hk
    | chooses hchoice heq =>
        rw [hchoice.stop?_eq, heq]
        rw [hchoice.literals_eq, List.append_subset] at he
        obtain ⟨hx, hyes, hno⟩ := hchoice.mem_children
        exact reaches_choice (hparts _ hx) (fun y hy => hparts y (hyes y hy))
          (fun y hy => hparts y (hno y hy)) hw hk he.1 he.2 _

/-- The kind of failure that a node is refused with. -/
theorem kind_refusal {n : Expr} (h : isRefused n = true) :
    (refusal n).report?.map Report.kind =
      some (if isMethodRead n then .logicFlaw else .unsupported) := by
  cases n with
  | property x name t =>
      have hread : isMethodRead (.property x name t) = true := h
      rw [if_pos hread]
      rfl
  | construct | unary | assign | call => rfl
  | _ => cases h

/-- The conversion of an expression without gaps, whose literals and those of its
continuation name definitions that are neither the owner nor above it, succeeds
exactly if it refuses no node. Otherwise it fails where it stops: the failure is a
logic flaw if the node takes a method off its object, and else says that the node
is not supported. -/
theorem convert_accepts {owner : FuncId} {e : Expr} {k : Option Expr} {w : Workspace}
    (hforest : w.program.Forest) (howner : owner = noFunc ∨ (w.program.func? owner).isSome)
    (hcomplete : e.Complete)
    (hliterals : ∀ c ∈ e.literals ++ handed k,
      (w.program.func? c).isSome ∧ c ∉ w.program.chain owner) :
    ((∃ e' w', convert owner e k w = .ok e' w') ↔ ∀ n ∈ e.nodes, isRefused n = false) ∧
      ∀ f w', convert owner e k w = .error f w' → ∃ n, stop? e = some n ∧ n ∈ e.nodes ∧
        f.report?.map Report.kind =
          some (if isMethodRead n then .logicFlaw else .unsupported) := by
  have hbench : Bench w.program owner [] (e.literals ++ handed k) :=
    ⟨⟨hforest, howner, hliterals⟩, .nil, by simp⟩
  have hreaches := decides_of_complete owner e hcomplete k [] _ w hbench
    (List.subset_append_left ..) (List.subset_append_right ..)
  rw [← stop?_eq_none_iff]
  cases hstop : stop? e with
  | none =>
      rw [hstop] at hreaches
      obtain ⟨e', w', hrun, -⟩ := hreaches
      refine ⟨⟨fun _ => rfl, fun _ => ⟨e', w', hrun⟩⟩, fun f w'' herror => ?_⟩
      cases hrun.symm.trans herror
  | some n =>
      rw [hstop] at hreaches
      obtain ⟨w', hrun⟩ := hreaches
      obtain ⟨hn, hrefused⟩ := stop?_eq_some e hstop
      refine ⟨⟨?_, fun h => by cases h⟩, fun f w'' herror => ?_⟩
      · rintro ⟨e', w'', hok⟩
        cases hrun.symm.trans hok
      · cases hrun.symm.trans herror
        exact ⟨n, rfl, hn, kind_refusal hrefused⟩

/-- An assignment whose value is a call of a function literal, with short cuts. -/
def shortCuts : Expr :=
  let x : Expr := .ref ⟨0, "x", .variant⟩
  .assign x (.binary .or (.unary .postInc x .int)
    (.call (.lambda 2 .variant) [.property x "p" .variant, x] .variant) .variant)

def objectOrMethod : Expr :=
  let x : Expr := .ref ⟨0, "x", .variant⟩
  .conditional (.lambda 2 .variant) (.property x "m" (.func .void [] false)) (.construct none [])
    .variant

theorem convert_accepts_branches :
    (∃ e' w', convert 1 shortCuts (some (.lambda 2 .variant)) { program := .nested [] [] } =
      .ok e' w') ∧
    ∃ f w', convert 1 objectOrMethod none { program := .nested [] [] } = .error f w' ∧
      f.report?.map Report.kind = some .logicFlaw := by
  have hforest : (Program.nested [] []).Forest := Program.forest_nested [] []
  have hshort : shortCuts.Complete := ⟨rfl, by decide⟩
  have hchoice : objectOrMethod.Complete := ⟨rfl, by decide⟩
  obtain ⟨hsupported, -⟩ := convert_accepts (k := some (.lambda 2 .variant))
    (w := { program := .nested [] [] }) hforest
      (.inr (by decide : ((Program.nested [] []).func? 1).isSome))
    hshort (by decide +kernel)
  obtain ⟨hnone, hfails⟩ := convert_accepts (k := none) (w := { program := .nested [] [] }) hforest
    (.inr (by decide : ((Program.nested [] []).func? 1).isSome)) hchoice (by decide +kernel)
  refine ⟨hsupported.2 (by decide), ?_⟩
  cases hrun : convert 1 objectOrMethod none { program := .nested [] [] } with
  | ok e' w' => cases stop?_eq_none_iff.2 (hnone.1 ⟨e', w', hrun⟩)
  | error f w' =>
      obtain ⟨n, hn, -, hkind⟩ := hfails f w' hrun
      cases hn
      exact ⟨f, w', rfl, hkind⟩

end Continuation

end Resumable
