import Resumable.Proofs.Difference
import Resumable.Proofs.Generator.Lasting

/-!
# Generators that have come to their end

The last fragment of a generator points the object at this fragment and throws.
From then on every resumption runs the last fragment again, so that it reports
the end and does nothing else. No other way out of a resumption moves the
object on: a body that throws is run again.
-/

namespace Resumable

theorem Fields.get_set (fs : Fields) (k : Key) (x : Value) : get (set fs k x) k = x := by
  induction fs with
  | nil => simp [set, get]
  | cons f rest ih =>
      obtain ⟨other, y⟩ := f
      unfold set
      by_cases hother : other = k
      · simp [hother, get]
      · by_cases hbefore : k.before other
        · simp [hother, hbefore, get]
        · simpa [hother, hbefore, get, List.lookup_cons, beq_false_of_ne (Ne.symm hother)] using ih

/-- Where the frames and globals of two stores have the same values, so have all
variables. -/
theorem Store.find?_congr {σ τ : Store} (hbinding : ∀ f x, τ.binding f x = σ.binding f x)
    (hglobals : τ.globals = σ.globals) (env : Env) (v : Variable) :
    τ.find? env v = σ.find? env v := by
  have hframe : τ.frameOf? v env = σ.frameOf? v env := by
    induction env with
    | nil => rfl
    | cons f rest ih => rw [frameOf?_cons, frameOf?_cons, hbinding, ih]
  simp only [find?, hframe, hglobals, hbinding]

theorem Store.binding_newFrame_nil (σ : Store) (f : FrameId) (x : Nat) :
    (σ.newFrame []).2.binding f x = σ.binding f x := by
  rw [binding_newFrame]
  split
  · next hf => rw [binding_of_size_le (Nat.le_of_eq hf.symm), List.lookup_nil]
  · rfl

namespace Machine

theorem run_succ {cx : Context} {fuel : Nat} {s t : State} (h : step cx s = .next t) :
    run cx (fuel + 1) s = run cx fuel t := by
  rw [run, h]

theorem run_of_steps {cx : Context} {ok : State → Prop} {fuel : Nat} {s t : State}
    {answer : Except Failure Value × Store} (h : Steps (step cx) ok s t)
    (hrun : run cx fuel s = some answer) : ∃ fuel, run cx fuel t = some answer := by
  induction h generalizing fuel with
  | refl => exact ⟨fuel, hrun⟩
  | head _ hnext _ ih =>
      cases fuel with
      | zero => cases hrun
      | succ fuel => exact ih (run_succ hnext ▸ hrun)

def isHandler : Waiting → Bool
  | .tryCatch (_ :: _) _ => true
  | _ => false

/-- What nothing catches is what a run ends with. -/
theorem result_of_thrown {cx : Context} {fuel : Nat} {v : Value} {stack : List Waiting} {depth : Nat}
    {σ τ : Store} {r : Except Failure Value} (hstack : ∀ w ∈ stack, isHandler w = false)
    (h : run cx fuel ⟨.thrown v, stack, depth, σ⟩ = some (r, τ)) :
    r = .error (.thrown v) ∧ τ = σ := by
  induction stack generalizing fuel depth with
  | nil =>
      cases fuel with
      | zero => cases h
      | succ fuel =>
          cases h
          exact ⟨rfl, rfl⟩
  | cons w stack ih =>
      obtain ⟨hw, hrest⟩ := List.forall_mem_cons.1 hstack
      cases fuel with
      | zero => cases h
      | succ fuel =>
          cases w with
          | tryCatch catches env =>
              cases catches with
              | nil => exact ih hrest h
              | cons => cases hw
          | _ => exact ih hrest h

/-- Whether a state calls a function made in certain frames, and nothing waits to
catch what the call throws. -/
def callsIn (limit : Nat) (fn : FuncId) (env : Env) (s : State) : Bool :=
  match s.focus, s.stack with
  | .value (.closure _ g made), .operands .call [] [] _ :: below =>
      g = fn && made = env && s.depth < limit && below.all (!isHandler ·)
  | _, _ => false

theorem exists_of_callsIn {limit : Nat} {fn : FuncId} {env : Env} {s : State}
    (h : callsIn limit fn env s = true) : ∃ tag base below,
      s = ⟨.value (.closure tag fn env), .operands .call [] [] base :: below, s.depth, s.store⟩ ∧
        s.depth < limit ∧ ∀ w ∈ below, isHandler w = false := by
  obtain ⟨focus, stack, depth, store⟩ := s
  unfold callsIn at h
  split at h
  · next tag g made base below hfocus hstack =>
      simp only [Bool.and_eq_true, decide_eq_true_eq, List.all_eq_true, Bool.not_eq_true'] at h
      obtain ⟨⟨⟨rfl, rfl⟩, hdepth⟩, hbelow⟩ := h
      cases hfocus
      cases hstack
      exact ⟨tag, base, below, rfl, hdepth, hbelow⟩
  · cases h

theorem callee?_of_callsIn {limit : Nat} {fn : FuncId} {env : Env} {s : State}
    (h : callsIn limit fn env s = true) : callee? s = some fn := by
  obtain ⟨tag, base, below, hs, -⟩ := exists_of_callsIn h
  rw [hs]
  rfl

/-- A resumption of an object comes to a state. -/
def ComesTo (cx : Context) (ref : Nat) (σ : Store) (t : State) : Prop :=
  ∃ s, start cx (nextOf σ ref) [] σ = .next s ∧ Steps (step cx) (fun _ => True) s t

end Machine

namespace Generator

open Machine

/-! ## The last fragment -/

/-- Some frames hold a generator object and its last fragment. -/
structure Hosts (last : FuncId) (object finish : Variable) (σ : Store) (env : Env) (ref : Nat) :
    Prop where
  lt : ref < σ.objects.size
  object : ∃ cls, σ.find? env object = some (.object ref cls)
  finish : ∃ tag, σ.find? env finish = some (.closure tag last env)

/-- A generator object has come to its end: it goes on with the last fragment, made
in frames that hold the object and this fragment. -/
def Ended (last : FuncId) (object finish : Variable) (σ : Store) (ref : Nat) : Prop :=
  ∃ tag env, nextOf σ ref = .closure tag last env ∧ Hosts last object finish σ env ref

theorem Silent.trans {σ τ υ : Store} (first : Silent σ τ) (second : Silent τ υ) : Silent σ υ where
  trace := second.trace.trans first.trace
  output := second.output.trans first.output
  recorded := second.recorded.trans first.recorded
  globals := second.globals.trans first.globals

def afterLast (p : Program) (stop : ClassId) (ref : Nat) (c : Value) (σ : Store) : Store :=
  (((σ.newFrame []).2.modifyFields ref fun fs => fs.set (.text nextField) c).newObject
    (newFields ⟨p, 0⟩ (some stop))).2

section

variable {p : Program} {last : FuncId} {object finish : Variable} {types : TypeTable}
  {stop : ClassId} {σ : Store} {env : Env} {ref : Nat}

theorem silent_afterLast {c : Value} : Silent σ (afterLast p stop ref c σ) :=
  ⟨rfl, rfl, rfl, rfl⟩

theorem objects_newFrame_modifyFields (change : Fields → Fields) :
    ((σ.newFrame []).2.modifyFields ref change).objects.size = σ.objects.size := by
  simp [Store.modifyFields, Store.newFrame]

/-- The last fragment leaves its object at the end. -/
theorem Hosts.ended (h : Hosts last object finish σ env ref) (tag : Nat) :
    Ended last object finish (afterLast p stop ref (.closure tag last env) σ) ref := by
  have hsame (v : Variable) : (afterLast p stop ref (.closure tag last env) σ).find? env v =
      σ.find? env v :=
    Store.find?_congr (τ := afterLast p stop ref (.closure tag last env) σ)
      σ.binding_newFrame_nil rfl env v
  refine ⟨tag, env, ?_, ?_, ?_, ?_⟩
  · have hlt : ref < (σ.newFrame []).2.objects.size := h.lt
    rw [nextOf, afterLast, Store.fields_newObject, objects_newFrame_modifyFields,
      if_neg (Nat.ne_of_lt h.lt), Store.fields_modifyFields hlt, if_pos rfl, Fields.get_set]
  · rw [afterLast, Store.newObject, Array.size_push, objects_newFrame_modifyFields]
    exact Nat.lt_succ_of_lt h.lt
  · rw [hsame]
    exact h.object
  · rw [hsame]
    exact h.finish

theorem lookup_inner {v : Variable} {x : Value} (h : σ.find? env v = some x) :
    (σ.newFrame []).2.lookup (σ.frames.size :: env) v = .ok x := by
  have hbare : (σ.newFrame []).2.binding σ.frames.size v.id = none := by
    rw [Store.binding_newFrame, if_pos rfl, List.lookup_nil]
  have hframe : (σ.newFrame []).2.find? (σ.frames.size :: env) v = some x := by
    rw [← h, ← Store.find?_congr (Store.binding_newFrame_nil σ) rfl env v, Store.find?, Store.find?,
      Store.frameOf?_cons, hbare]
    rfl
  rw [Store.lookup_eq, hframe]

/-- The last fragment points the object at itself and throws. -/
theorem run_last {tag limit fuel depth : Nat} {cls : Option ClassId} {fn : FuncId}
    {stack : List Waiting} (hfinish : σ.find? env finish = some (.closure tag last env))
    (hobject : σ.find? env object = some (.object ref cls)) :
    run ⟨p, limit⟩ (fuel + 14)
        ⟨.complete .normal, .block (lastBody types object finish stop) (σ.frames.size :: env) ::
          .call fn :: stack, depth + 1, (σ.newFrame []).2⟩ =
      run ⟨p, limit⟩ fuel ⟨.thrown (.object σ.objects.size (some stop)), stack, depth,
        afterLast p stop ref (.closure tag last env) σ⟩ := by
  rw [lastBody,
    -- the value of the end's variable
    run_succ rfl, run_succ rfl, run_succ rfl,
    run_succ (by simp only [step, stepEval, lookup_inner hfinish]; rfl),
    -- into the field of the object
    run_succ rfl,
    run_succ (by simp only [step, stepEval, lookup_inner hobject]; rfl), run_succ rfl,
    run_succ rfl, run_succ rfl, run_succ rfl, run_succ rfl, run_succ rfl, run_succ rfl, run_succ rfl,
    ← objects_newFrame_modifyFields (σ := σ) fun fs => fs.set (.text nextField) (.closure tag last env)]
  rfl

variable (hlast : p.code? last = some ⟨"", [], [], lastBody types object finish stop⟩)

include hlast

/-- The function of the last fragment. -/
theorem exists_func_last : ∃ f, p.func? last = some f ∧
    f.body = lastBody types object finish stop ∧ activation f [] = [] := by
  obtain ⟨f, hf, hcode⟩ := Option.map_eq_some_iff.1 hlast
  have hparams : f.params = [] := congrArg Code.params hcode
  have hlocals : f.locals = [] := congrArg Code.locals hcode
  exact ⟨f, hf, congrArg Code.body hcode, by simp [activation, hparams, hlocals]⟩

/-- A run that calls the last fragment ends there if nothing catches what it
throws, and the object has come to its end. -/
theorem ended_of_callsIn {limit fuel : Nat} {t : State} {r : Except Failure Value} {τ : Store}
    (ht : callsIn limit last env t = true) (h : Hosts last object finish t.store env ref)
    (hrun : run ⟨p, limit⟩ fuel t = some (r, τ)) :
    (∃ n, r = .error (.thrown (.object n (some stop)))) ∧ Silent t.store τ ∧
      Ended last object finish τ ref := by
  obtain ⟨tag, base, below, hstate, hdepth, hbelow⟩ := exists_of_callsIn ht
  obtain ⟨f, hf, hbody, hactivation⟩ := exists_func_last hlast
  obtain ⟨cls, hobject⟩ := h.object
  obtain ⟨tag', hfinish⟩ := h.finish
  have hcall : step ⟨p, limit⟩ t = .next
      ⟨.complete .normal, .block (lastBody types object finish stop) (t.store.frames.size :: env) ::
        .call last :: below, t.depth + 1, (t.store.newFrame []).2⟩ := by
    rw [step_eq_free fun _ _ => hdepth, hstate, free_call hf rfl, hbody, hactivation]
  have hmore := run_mono (Nat.le_add_right fuel 15) hrun
  rw [run_succ hcall, run_last hfinish hobject] at hmore
  obtain ⟨hr, rfl⟩ := result_of_thrown hbelow hmore
  exact ⟨⟨_, hr⟩, silent_afterLast, h.ended tag'⟩

variable (hstop : (p.types.class? stop).map (·.name) = some stopClass)

omit hlast in
include hstop in
theorem isInstance_stop (r : Nat) : (Value.object r (some stop)).isInstance p stopClass = true := by
  obtain ⟨d, hd, hname⟩ := Option.map_eq_some_iff.1 hstop
  simp [Value.isInstance, hd, hname]

include hstop

/-- A generator that has come to its end reports so, does nothing else and stays
there. -/
theorem resume_ended {limit fuel : Nat} (hlimit : 0 < limit) (hfuel : 15 ≤ fuel)
    (h : Ended last object finish σ ref) (cls : Option ClassId) :
    ∃ σ', resume ⟨p, limit⟩ fuel (.object ref cls) σ = some (.done, σ') ∧ Silent σ σ' ∧
      Ended last object finish σ' ref := by
  obtain ⟨tag, env, hnext, hhosts⟩ := h
  obtain ⟨f, hf, hbody, hactivation⟩ := exists_func_last hlast
  obtain ⟨_, hobject⟩ := hhosts.object
  obtain ⟨tag', hfinish⟩ := hhosts.finish
  obtain ⟨fuel, rfl⟩ := Nat.exists_eq_add_of_le' hfuel
  refine ⟨afterLast p stop ref (.closure tag' last env) σ, ?_, silent_afterLast, hhosts.ended tag'⟩
  have hcall : call ⟨p, limit⟩ (fuel + 15) (.closure tag last env) [] σ =
      some (.error (.thrown (.object σ.objects.size (some stop))),
        afterLast p stop ref (.closure tag' last env) σ) := by
    rw [call, start_closure hf hlimit, Machine.finish, entered, hbody, hactivation,
      Nat.add_right_comm fuel 1 14, run_last hfinish hobject]
    rfl
  rw [nextOf] at hnext
  simp [resume, hnext, hcall, isInstance_stop hstop]

def resumeTimes (cx : Context) (fuel : Nat) (gen : Value) :
    Nat → Store → Option (List Resumption × Store)
  | 0, σ => some ([], σ)
  | n + 1, σ => do
      let (answer, σ) ← resume cx fuel gen σ
      let (answers, σ) ← resumeTimes cx fuel gen n σ
      return (answer :: answers, σ)

/-- A generator that has come to its end stays there, however often it is
resumed. -/
theorem resumeTimes_ended {limit fuel : Nat} (hlimit : 0 < limit) (hfuel : 15 ≤ fuel)
    (cls : Option ClassId) (n : Nat) (h : Ended last object finish σ ref) :
    ∃ σ', resumeTimes ⟨p, limit⟩ fuel (.object ref cls) n σ = some (List.replicate n .done, σ') ∧
      Silent σ σ' ∧ Ended last object finish σ' ref := by
  induction n generalizing σ with
  | zero => exact ⟨σ, rfl, ⟨rfl, rfl, rfl, rfl⟩, h⟩
  | succ n ih =>
      obtain ⟨σ₁, hresume, hfirst, hended⟩ := resume_ended hlast hstop hlimit hfuel h cls
      obtain ⟨σ₂, hrest, hsecond, hended⟩ := ih hended
      refine ⟨σ₂, ?_, hfirst.trans hsecond, hended⟩
      simp [resumeTimes, hresume, hrest, List.replicate_succ]

end

/-! ## Frames of generators -/

section

variable {stop : ClassId} {D : Compilation} {id : FuncId} {c : Code} {p p' : Program}
  {finish : Variable} {last : FuncId} {σ τ : Store}

/-- The frame of a call holds the object and the last fragment for good. -/
theorem Founded.hosts {env : Env} (h : Founded D env σ τ)
    (hfinish : D.vars.lookup Label.finish = some finish)
    (hlast : D.table.lookup Label.finish = some last) {υ : Store}
    (hυ : Keeps (· ∈ D.added.map (·.id)) σ.frames.size τ υ) :
    Hosts last D.object finish υ (σ.frames.size :: env) σ.objects.size := by
  have hfind {v : Variable} {x : Value} (hv : v ∈ D.added)
      (hx : τ.binding σ.frames.size v.id = some x) :
      υ.find? (σ.frames.size :: env) v = some x := by
    have hkept := (hυ.binding v.id (List.mem_map_of_mem hv)).trans hx
    simp [Store.find?, Store.frameOf?_cons, hkept]
  obtain ⟨tag, htag⟩ := h.labels hfinish
  rw [hlast, Option.getD_some] at htag
  exact ⟨Nat.lt_of_lt_of_le h.objects hυ.objects, ⟨_, hfind (.head _) h.object⟩,
    ⟨tag, hfind (Compiled.mem_added hfinish) htag⟩⟩

end

end Generator

namespace Pass

open Machine

variable {b : Generator.Builtins} {id : FuncId} {w w' : Workspace}

/-- Converting expressions keeps the function. -/
theorem isSome_of_converted {config : Config} {w₁ : Workspace} (h : Converted config id w w₁)
    (hid : (w.program.func? id).isSome) : (w₁.program.func? id).isSome := by
  unfold Converted at h
  split at h
  · rwa [← h]
  · obtain ⟨body, w₂, hrun, rfl⟩ := convertBody_eq_ok h
    have hcontinued : Continuation.Continued w (fun _ => True) [] (bodyRefs body) w₂ :=
      (Continuation.continued_convert w _ id).replaceSlots hrun (.start w fun _ _ => trivial)
    have hsize := hcontinued.size
    rw [Program.isSome_func?] at hid ⊢
    change 0 < id ∧ id ≤ (w₂.program.refill id body).size
    rw [Program.refill_size]
    exact ⟨hid.1, Nat.le_trans hid.2 hsize⟩

/-- The end of a generator is final. A call of a generator that the pass has compiled
gives an object. Whatever is called and resumed afterwards: where a resumption of
the object calls its last fragment and nothing catches what that throws, the
resumption reports the end, does nothing else from there on that can be seen, and
leaves the object at its end. However often an object at its end is resumed, each
resumption reports the end, does nothing else that can be seen, and leaves the
object at its end. -/
theorem ended_for_good {config : Config} {stats : Stats} {f : Func}
    (hf : w.program.func? id = some f) (hgenerator : f.generator = true)
    (hscoped : w.program.scoped = true) (h : transform config (some b) id w = .ok stats w')
    (hstop : (w'.program.types.class? b.stop).map (·.name) = some Generator.stopClass) :
    ∃ w₁ D c finish last, Converted config id w w₁ ∧
      Generator.Compiled b.stop D id c w₁.program w'.program ∧
      D.vars.lookup Label.finish = some finish ∧ D.table.lookup Label.finish = some last ∧
      ∀ limit args first, 0 < limit → ∃ ref σ,
        (∃ n, ∀ fuel, n ≤ fuel → callFunc ⟨w'.program, limit⟩ fuel id args first =
          some (.ok (.object ref (some D.cls)), σ)) ∧
        ∀ τ got, Exchange ⟨w'.program, limit⟩ (fun _ => True) σ τ got →
          (∀ fuel answer τ' t,
            resume ⟨w'.program, limit⟩ fuel (.object ref (some D.cls)) τ = some (answer, τ') →
            ComesTo ⟨w'.program, limit⟩ ref τ t → callsIn limit last [first.frames.size] t = true →
            answer = .done ∧ Generator.Silent t.store τ' ∧
              Generator.Ended last D.object finish τ' ref) ∧
          (Generator.Ended last D.object finish τ ref → ∀ fuel times, 15 ≤ fuel → ∃ τ',
            Generator.resumeTimes ⟨w'.program, limit⟩ fuel (.object ref (some D.cls)) times τ =
              some (List.replicate times .done, τ') ∧
            Generator.Silent τ τ' ∧ Generator.Ended last D.object finish τ' ref) := by
  obtain ⟨f', w₁, hf', hconverted, hflow⟩ := flow_of_transform h
  cases hf.symm.trans hf'
  rw [hgenerator] at hflow
  obtain ⟨f₁, hf₁⟩ := Option.isSome_iff_exists.1
    (isSome_of_converted hconverted (Option.isSome_of_eq_some hf))
  obtain ⟨D, hD⟩ := compiled_of_flow hflow (Program.code?_eq_some hf₁)
  obtain ⟨finish, last, hfinish, hlast, hcode⟩ := hD.last
  refine ⟨w₁, D, f₁.code, finish, last, hconverted, hD, hfinish, hlast, ?_⟩
  intro limit args first hlimit
  obtain ⟨g, hg, -⟩ := Option.map_eq_some_iff.1 hD.own
  obtain ⟨σ, hfounded, hsteps⟩ := hD.founds hg [] args first [] 0
  have hothers (fn : FuncId) (f : Func) (hne : fn ≠ id) (hf : w'.program.func? fn = some f) :
      (Generator.keeping (· ∈ D.added.map (·.id)) first.frames.size σ).Code f.body :=
    hD.code_keeping (Program.code?_eq_some hf₁) (lt_of_converted hscoped hconverted) hne hf
  refine ⟨first.objects.size, σ, ?_, fun τ got hexchange => ?_⟩
  · have hends : Machine.Ends (step ⟨w'.program, limit⟩) (fun _ => True) (entered g id [] args first)
        (.ok (.object first.objects.size (some D.cls))) σ := by
      refine (hsteps.transfer fun s hs => ⟨trivial, ?_⟩).ends (.of_halt trivial rfl)
      exact step_eq_free (by simp [hs])
    obtain ⟨n, hn⟩ := run_of_ends hends
    refine ⟨n, fun fuel hfuel => ?_⟩
    simp only [callFunc, hg, call, start_closure hg hlimit, Machine.finish]
    exact run_mono hfuel hn
  have hkeeps := hexchange.keeps (fun _ _ _ _ _ _ => Generator.keeps_of_call hD hothers)
    ⟨hfounded.frames, fun _ _ => rfl, Nat.le_refl _⟩
  constructor
  · rintro fuel answer τ' t hresume ⟨s, hstart, hreached⟩ ht
    have hhosts := hfounded.hosts hfinish hlast
      (Generator.keeps_of_steps hD hothers hkeeps hstart hreached (callee?_of_callsIn ht))
    obtain ⟨r, hcall, hdone⟩ := exists_call_of_resume hresume
    rw [call, hstart] at hcall
    obtain ⟨fuel, hrun⟩ := run_of_steps hreached hcall
    obtain ⟨⟨n, hr⟩, hsilent, hended⟩ := Generator.ended_of_callsIn hcode ht hhosts hrun
    exact ⟨hdone _ hr (Generator.isInstance_stop hstop n), hsilent, hended⟩
  · intro hended fuel times hfuel
    exact Generator.resumeTimes_ended hcode hstop hlimit hfuel _ times hended

def settingOf? (name : String) : Stmt → Option FuncId
  | .simple (.expr (.assign (.ref v) (.lambda fn _))) _ => if v.name = name then some fn else none
  | _ => none

/-- The fragment of a label stands in the settings of the function. -/
theorem mem_settingOf {stop : ClassId} {D : Generator.Compilation} {c : Code} {p p' : Program}
    (h : Generator.Compiled stop D id c p p') {l : String} {v : Variable} {fn : FuncId}
    (hv : D.vars.lookup l = some v) (hfn : D.table.lookup l = some fn) :
    fn ∈ (p'.bodyOf id).filterMap (settingOf? l) := by
  obtain ⟨-, -, u, t, -, -, hu, hset, -⟩ :=
    h.fragments.of_mem_table (Elimination.Removes.mem_of_lookup hfn)
  cases hv.symm.trans hu
  rw [Program.bodyOf_of_eq_some h.own]
  refine List.mem_filterMap.2 ⟨_, List.mem_append_left _ (.tail _ hset), ?_⟩
  simp [settingOf?, h.name_eq hv]

def endsAtOnce (p : Program) (fn : FuncId) : Bool :=
  (callFunc ⟨p, 10⟩ 1000 1 [] tracing).any fun started =>
    match started.1 with
    | .ok (.object ref cls) =>
        (resume ⟨p, 10⟩ 1000 (.object ref cls) started.2).isSome &&
          callComes ⟨p, 10⟩ 200 (nextOf started.2 ref) [] started.2
            (callsIn 10 fn [tracing.frames.size])
    | _ => false

theorem ended_for_good_single : ∃ stats w' w₁ D c finish last ref σ σ₁ σ₂,
    setup {} (single []).registry = .ok singleBuiltins ∧
    transform {} (some singleBuiltins) 1 (single []) = .ok stats w' ∧
    Generator.Compiled singleBuiltins.stop D 1 c (w₁ : Workspace).program w'.program ∧
    callFunc ⟨w'.program, 10⟩ 1000 1 [] tracing = some (.ok (.object ref (some D.cls)), σ) ∧
    resume ⟨w'.program, 10⟩ 1000 (.object ref (some D.cls)) σ = some (.done, σ₁) ∧
    Generator.Ended last D.object finish σ₁ ref ∧
    Generator.resumeTimes ⟨w'.program, 10⟩ 1000 (.object ref (some D.cls)) 3 σ₁ =
      some ([.done, .done, .done], σ₂) := by
  obtain ⟨stats, w', hok, hchecks⟩ := Lowering.ok_of_succeeds
    (show Lowering.succeeds (transform {} (some singleBuiltins) 1) (single []) (fun w' =>
      (w'.program.types.class? singleBuiltins.stop).map (·.name) = some Generator.stopClass &&
        (w'.program.bodyOf 1).filterMap (settingOf? Label.finish) = [3] &&
        endsAtOnce w'.program 3) = true
      by decide +kernel)
  simp only [Bool.and_eq_true, decide_eq_true_eq] at hchecks
  obtain ⟨⟨hstop, hset⟩, hends⟩ := hchecks
  obtain ⟨w₁, D, c, finish, last, -, hD, hfinish, hlast, hruns⟩ :=
    ended_for_good (show (single []).program.func? 1 = some _ from rfl) rfl
      (by decide +kernel) hok hstop
  obtain ⟨ref, σ, ⟨n, hcall⟩, hlater⟩ := hruns 10 [] tracing (by decide)
  have hlast₃ : last = 3 := List.mem_singleton.1 (hset ▸ mem_settingOf hD hfinish hlast)
  subst hlast₃
  obtain ⟨started, hstarted, hends⟩ := (Option.any_eq_true _ _).1 hends
  obtain rfl := callFunc_unique hstarted (hcall n (Nat.le_refl n))
  rw [Bool.and_eq_true, Option.isSome_iff_exists] at hends
  obtain ⟨⟨⟨answer, σ₁⟩, hresume⟩, hcomes⟩ := hends
  obtain ⟨s, t, hstart, hsteps, ht⟩ := exists_of_callComes hcomes
  obtain ⟨rfl, -, hended⟩ := (hlater σ [] .start).1 _ _ _ t hresume ⟨s, hstart, hsteps⟩ ht
  have hexchange : Exchange ⟨w'.program, 10⟩ (fun _ => True) σ σ₁ [] := .resume .start hresume
  obtain ⟨σ₂, htimes, -⟩ := (hlater σ₁ [] hexchange).2 hended 1000 3 (by decide)
  exact ⟨stats, w', w₁, D, c, finish, 3, ref, σ, σ₁, σ₂, rfl, hok, hD, hstarted, hresume, hended,
    htimes⟩

def isFailed : Resumption → Bool
  | .failed _ => true
  | _ => false

def failsWith (cx : Context) (gen : Value) (notes : Array String) (wanted : Store → Bool)
    (σ : Store) : Bool :=
  (resume cx 1000 gen σ).any fun answer =>
    isFailed answer.1 && decide (answer.2.trace = notes) && wanted answer.2

theorem exists_of_failsWith {cx : Context} {gen : Value} {notes : Array String}
    {wanted : Store → Bool} {σ : Store} (h : failsWith cx gen notes wanted σ = true) :
    ∃ a σ', resume cx 1000 gen σ = some (a, σ') ∧ isFailed a = true ∧ σ'.trace = notes ∧
      wanted σ' = true := by
  obtain ⟨answer, hresume, hanswer⟩ := (Option.any_eq_true _ _).1 h
  simp only [Bool.and_eq_true, decide_eq_true_eq] at hanswer
  exact ⟨answer.1, answer.2, hresume, hanswer.1.1, hanswer.1.2, hanswer.2⟩

def throwing : Workspace :=
  single [.expr (.mkCall (.ref ⟨1, "t", .variant⟩) [.literal (.int 1) .variant]),
    .throw (.literal (.int 7) .variant)]

def runsTwice (p : Program) : Bool :=
  (callFunc ⟨p, 10⟩ 1000 1 [] tracing).any fun started =>
    match started.1 with
    | .ok gen => failsWith ⟨p, 10⟩ gen #["t(1)"]
        (failsWith ⟨p, 10⟩ gen #["t(1)", "t(1)"] fun _ => true) started.2
    | .error _ => false

/-- A generator whose body threw is not finished: the next resumption runs the
body again. -/
theorem thrown_runs_again : ∃ stats w' gen σ σ₁ σ₂ a₁ a₂,
    setup {} throwing.registry = .ok singleBuiltins ∧
    transform {} (some singleBuiltins) 1 throwing = .ok stats w' ∧
    callFunc ⟨w'.program, 10⟩ 1000 1 [] tracing = some (.ok gen, σ) ∧
    resume ⟨w'.program, 10⟩ 1000 gen σ = some (a₁, σ₁) ∧ isFailed a₁ = true ∧
    σ₁.trace = #["t(1)"] ∧
    resume ⟨w'.program, 10⟩ 1000 gen σ₁ = some (a₂, σ₂) ∧ isFailed a₂ = true ∧
    σ₂.trace = #["t(1)", "t(1)"] := by
  obtain ⟨stats, w', hok, htwice⟩ := Lowering.ok_of_succeeds
    (show Lowering.succeeds (transform {} (some singleBuiltins) 1) throwing
      (fun w' => runsTwice w'.program) = true by decide +kernel)
  obtain ⟨⟨started, σ⟩, hcall, hstarted⟩ := (Option.any_eq_true _ _).1 htwice
  cases started with
  | error f => cases hstarted
  | ok gen =>
      obtain ⟨a₁, σ₁, hfirst, hfailed₁, htrace₁, hrest⟩ := exists_of_failsWith hstarted
      obtain ⟨a₂, σ₂, hsecond, hfailed₂, htrace₂, -⟩ := exists_of_failsWith hrest
      exact ⟨stats, w', gen, σ, σ₁, σ₂, a₁, a₂, rfl, hok, hcall, hfirst, hfailed₁, htrace₁, hsecond,
        hfailed₂, htrace₂⟩

end Pass

end Resumable
