import Mathlib.Order.Basic
import Resumable.Console.Stepper

/-!
# Sessions with the stepper

Whatever keys are pressed and whatever is typed, each screen of the stepper finds
what it needs: a lowered sample, arguments that can be read, a run under way. A run
that is started over begins as it began.
-/

namespace Resumable.Console.Stepper

/-! ## Sessions -/

/-- What happens to the stepper: a key or another message, or the text field takes
any other text while it is shown. -/
inductive Event where
  | key (k : Key)
  | edit (text : String)

def react (m : Stepper) : Event → Stepper
  | .key k => (m.update k).1
  | .edit text => if m.screen = .args then { m with input := text } else m

def session : List Event → Stepper → Stepper
  | [], m => m
  | event :: rest, m => session rest (m.react event)

/-- Whether one screen is shown from the first state of a session to the last. -/
def staysOn (screen : Screen) : List Event → Stepper → Bool
  | [], m => m.screen = screen
  | event :: rest, m => m.screen = screen && staysOn screen rest (m.react event)

structure Sound (m : Stepper) : Prop where
  selected_lt : m.selected < Catalog.names.length
  /-- The sample that has been lowered is the chosen one. -/
  prepared : m.screen ≠ .select →
    ∃ p, m.prepared = some p ∧ prepare m.selectedName m.options = .ok p
  running : m.screen = .step → m.store.isSome
  readable : m.screen = .step → ∃ args, parseArgs m.input = .ok args
  generator : m.screen = .step → m.gen.isSome →
    ∃ p, m.prepared = some p ∧ p.isGenerator = true
  values_le : (m.values.length : Int) ≤ max m.options.steps 0

variable {m m' : Stepper}

/-! ## What each key does -/

structure SameSetup (m m' : Stepper) : Prop where
  options : m'.options = m.options
  selected : m'.selected = m.selected
  prepared : m'.prepared = m.prepared
  input : m'.input = m.input

theorem SameSetup.refl (m : Stepper) : SameSetup m m := ⟨rfl, rfl, rfl, rfl⟩

theorem SameSetup.trans {m'' : Stepper} (h : SameSetup m m') (h' : SameSetup m' m'') :
    SameSetup m m'' where
  options := h'.options.trans h.options
  selected := h'.selected.trans h.selected
  prepared := h'.prepared.trans h.prepared
  input := h'.input.trans h.input

theorem SameSetup.start (m : Stepper) : SameSetup m m.start := by
  unfold Stepper.start
  split
  · exact .refl m
  · split
    · exact ⟨rfl, rfl, rfl, rfl⟩
    · dsimp only
      split
      · exact ⟨rfl, rfl, rfl, rfl⟩
      · split <;> exact ⟨rfl, rfl, rfl, rfl⟩

theorem SameSetup.advance (m : Stepper) : SameSetup m m.advance := by
  unfold Stepper.advance
  split
  · split
    · exact .refl m
    · split
      · exact ⟨rfl, rfl, rfl, rfl⟩
      · split <;> exact ⟨rfl, rfl, rfl, rfl⟩
  · exact .refl m

/-- A start looks at the setup only. -/
theorem start_congr (h : SameSetup m m') {p : Prepared} (hp : m.prepared = some p)
    {args : List Value} (hargs : parseArgs m.input = .ok args) : m'.start = m.start := by
  have hp' := h.prepared.trans hp
  simp only [start, hp, hp', hargs, h.options, h.selected, h.input]

/-- What a start leads to if the arguments can be read. -/
theorem start_of_parseArgs {p : Prepared} (hp : m.prepared = some p) {args : List Value}
    (hargs : parseArgs m.input = .ok args) :
    m.start.screen = .step ∧ m.start.store.isSome ∧ m.start.values = [] ∧
      (m.start.gen.isSome → p.isGenerator = true) := by
  simp only [start, hp, hargs]
  split
  · exact ⟨rfl, rfl, rfl, fun h => absurd h (by simp)⟩
  · split
    · next hgen => exact ⟨rfl, rfl, rfl, fun _ => hgen⟩
    · exact ⟨rfl, rfl, rfl, fun h => absurd h (by simp)⟩

/-- A resumption records at most one value, and only below the limit. -/
theorem values_advance (m : Stepper) : m.advance.values = m.values ∨
    (m.values.length < m.options.steps ∧ ∃ v, m.advance.values = m.values ++ [v]) := by
  unfold advance
  split
  · split
    · exact .inl rfl
    · split
      · exact .inl rfl
      · next hlimit =>
          split
          · exact .inl rfl
          · exact .inl rfl
          · exact .inr ⟨by omega, _, rfl⟩
  · exact .inl rfl

theorem kept_advance (m : Stepper) : m.advance.screen = m.screen ∧ m.advance.gen = m.gen ∧
    (m.store.isSome → m.advance.store.isSome) := by
  unfold advance
  split
  · split
    · exact ⟨rfl, rfl, id⟩
    · split
      · exact ⟨rfl, rfl, id⟩
      · split <;> exact ⟨rfl, rfl, fun _ => rfl⟩
  · exact ⟨rfl, rfl, id⟩

theorem advance_of_done (h : m.done = true) : m.advance = m := by
  unfold advance
  split
  · rw [if_pos h]
  · rfl

inductive Reacts (m : Stepper) : Stepper → Prop where
  | stay : Reacts m m
  | up (hselect : m.screen = .select) : Reacts m { m with selected := m.selected - 1 }
  | down (hselect : m.screen = .select) (h : m.selected + 1 < Catalog.names.length) :
      Reacts m { m with selected := m.selected + 1 }
  | choose (hselect : m.screen = .select) : Reacts m m.choose
  | start (hscreen : m.screen ≠ .select) : Reacts m m.start
  | advance (hstep : m.screen = .step) : Reacts m m.advance
  | leaveArgs (hargs : m.screen = .args) : Reacts m { m with screen := .select, failure := none }
  | leaveStep (hstep : m.screen = .step) : Reacts m { m with screen := .args }
  | edit (text : String) (hargs : m.screen = .args) : Reacts m { m with input := text }

theorem reacts_moveUp (m : Stepper) : Reacts m m.moveUp := by
  unfold moveUp
  split
  · next h =>
      rw [Bool.and_eq_true, decide_eq_true_eq] at h
      exact .up h.1
  · exact .stay

theorem reacts_moveDown (m : Stepper) : Reacts m m.moveDown := by
  unfold moveDown
  split
  · next h =>
      rw [Bool.and_eq_true, decide_eq_true_eq, decide_eq_true_eq] at h
      exact .down h.1 h.2
  · exact .stay

theorem reacts_confirm (m : Stepper) : Reacts m m.confirm := by
  unfold confirm
  split
  · next h => exact .choose h
  · next h => exact .start (by rw [h]; decide)
  · next h => exact .advance h

theorem reacts_goBack (m : Stepper) : Reacts m m.goBack := by
  unfold goBack
  split
  · exact .stay
  · next h => exact .leaveArgs h
  · next h => exact .leaveStep h

theorem reacts_text (m : Stepper) (s : String) : Reacts m (m.update (.text s)).1 := by
  unfold update
  dsimp only
  split
  · next h =>
      rw [typeText, if_pos h]
      exact .edit _ h
  · split
    · exact .stay
    · split
      · exact reacts_moveUp m
      · split
        · exact reacts_moveDown m
        · split
          · next h =>
              rw [Bool.and_eq_true, decide_eq_true_eq] at h
              exact .advance h.1
          · split
            · next h =>
                rw [Bool.and_eq_true, decide_eq_true_eq] at h
                exact .start (by rw [h.1]; decide)
            · exact .stay

theorem reacts_react (m : Stepper) (event : Event) : Reacts m (m.react event) := by
  cases event with
  | edit text =>
      rw [react]
      split
      · next h => exact .edit text h
      · exact .stay
  | key k =>
      cases k with
      | interrupt | resize => exact .stay
      | up => exact reacts_moveUp m
      | down => exact reacts_moveDown m
      | enter => exact reacts_confirm m
      | escape => exact reacts_goBack m
      | text s => exact reacts_text m s
      | backspace =>
          change Reacts m m.eraseLast
          rw [eraseLast]
          split
          · next h => exact .edit _ h
          · exact .stay

/-! ## What holds on every screen -/

theorem Sound.of_setup (h : Sound m) (hscreen : m.screen ≠ .select) (hsame : SameSetup m m') :
    m'.selected < Catalog.names.length ∧
      ∃ p, m'.prepared = some p ∧ prepare m'.selectedName m'.options = .ok p := by
  obtain ⟨p, hp, hprepare⟩ := h.prepared hscreen
  refine ⟨hsame.selected ▸ h.selected_lt, p, hsame.prepared.trans hp, ?_⟩
  rw [selectedName, hsame.selected, hsame.options]
  exact hprepare

theorem Sound.choose (h : Sound m) : Sound m.choose := by
  unfold Stepper.choose
  split
  · exact ⟨h.selected_lt, h.prepared, h.running, h.readable, h.generator, h.values_le⟩
  · next p hp =>
      exact ⟨h.selected_lt, fun _ => ⟨p, rfl, hp⟩, by simp, by simp, by simp, h.values_le⟩

theorem Sound.start (h : Sound m) (hscreen : m.screen ≠ .select) : Sound m.start := by
  obtain ⟨hselected, p, hp, hprepare⟩ := h.of_setup hscreen (SameSetup.start m)
  have hprepared := (SameSetup.start m).prepared.symm.trans hp
  cases hargs : parseArgs m.input with
  | error f =>
      have heq : m.start = { m with failure := some f } := by
        unfold Stepper.start
        split
        · next hnone => rw [hnone] at hprepared; cases hprepared
        · rw [hargs]
      rw [heq]
      exact ⟨h.selected_lt, h.prepared, h.running, h.readable, h.generator, h.values_le⟩
  | ok args =>
      obtain ⟨hstep, hstore, hvalues, hgen⟩ := start_of_parseArgs hprepared hargs
      refine ⟨hselected, fun _ => ⟨p, hp, hprepare⟩, fun _ => hstore, fun _ => ⟨args, ?_⟩,
        fun _ hsome => ⟨p, hp, hgen hsome⟩, ?_⟩
      · rw [(SameSetup.start m).input, hargs]
      · rw [hvalues]
        exact Int.le_max_right _ _

theorem Sound.advance (h : Sound m) (hstep : m.screen = .step) : Sound m.advance := by
  have hsame := SameSetup.advance m
  have hscreen : m.screen ≠ .select := by rw [hstep]; decide
  obtain ⟨hselected, hprepared⟩ := h.of_setup hscreen hsame
  obtain ⟨-, hgen, hstore⟩ := kept_advance m
  refine ⟨hselected, fun _ => hprepared, fun _ => hstore (h.running hstep), fun _ => ?_, ?_, ?_⟩
  · rw [hsame.input]
    exact h.readable hstep
  · rw [hgen, hsame.prepared]
    exact fun _ => h.generator hstep
  · have hle := h.values_le
    rw [hsame.options]
    rcases values_advance m with heq | ⟨hlt, v, heq⟩
    · rw [heq]
      exact hle
    · rw [heq, List.length_append, List.length_singleton]
      omega

theorem Sound.reacts (h : Sound m) (hm : Reacts m m') : Sound m' := by
  cases hm with
  | stay => exact h
  | up hselect =>
      have hlt := h.selected_lt
      refine ⟨?_, fun hne => absurd hselect hne, h.running, h.readable, h.generator, h.values_le⟩
      exact Nat.lt_of_le_of_lt (Nat.sub_le _ _) hlt
  | down hselect hlt =>
      exact ⟨hlt, fun hne => absurd hselect hne, h.running, h.readable, h.generator, h.values_le⟩
  | choose => exact h.choose
  | start hscreen => exact h.start hscreen
  | advance hstep => exact h.advance hstep
  | leaveArgs hargs =>
      exact ⟨h.selected_lt, fun hne => absurd rfl hne, by simp, by simp, by simp, h.values_le⟩
  | leaveStep hstep =>
      have hprepared := h.prepared (by rw [hstep]; decide)
      exact ⟨h.selected_lt, fun _ => hprepared, by simp, by simp, by simp, h.values_le⟩
  | edit text hargs =>
      have hprepared := h.prepared (by rw [hargs]; decide)
      have hstep : m.screen ≠ .step := by rw [hargs]; decide
      exact ⟨h.selected_lt, fun _ => hprepared, fun h' => absurd h' hstep,
        fun h' => absurd h' hstep, fun h' => absurd h' hstep, h.values_le⟩

theorem sound_initial (options : Options) : Sound (initial options) where
  selected_lt := by
    change (Catalog.names.idxOf? options.sample).getD 0 < _
    cases hplace : Catalog.names.idxOf? options.sample with
    | none => exact Nat.zero_lt_succ _
    | some i =>
        obtain ⟨hlt, -⟩ := List.findIdx?_eq_some_iff_getElem.1 hplace
        exact hlt
  prepared h := absurd rfl h
  running h := by cases h
  readable h := by cases h
  generator h := by cases h
  values_le := Int.le_max_right _ _

theorem Sound.session (events : List Event) (h : Sound m) : Sound (session events m) := by
  induction events generalizing m with
  | nil => exact h
  | cons event rest ih => exact ih (h.reacts (reacts_react m event))

/-! ## Starting over -/

theorem SameSetup.reacts (hstep : m.screen = .step) (hm : Reacts m m') : SameSetup m m' := by
  cases hm with
  | stay => exact .refl m
  | start => exact .start m
  | advance => exact .advance m
  | leaveStep => exact ⟨rfl, rfl, rfl, rfl⟩
  | up h | down h | choose h | leaveArgs h | edit _ h =>
      rw [hstep] at h
      cases h

theorem SameSetup.session {events : List Event} (h : staysOn .step events m = true) :
    SameSetup m (session events m) := by
  induction events generalizing m with
  | nil => exact .refl m
  | cons event rest ih =>
      rw [staysOn, Bool.and_eq_true, decide_eq_true_eq] at h
      exact (SameSetup.reacts h.1 (reacts_react m event)).trans (ih h.2)

theorem staysOn_first {screen : Screen} {events : List Event}
    (h : staysOn screen events m = true) : m.screen = screen := by
  cases events with
  | nil => exact of_decide_eq_true h
  | cons event rest =>
      rw [staysOn, Bool.and_eq_true, decide_eq_true_eq] at h
      exact h.1

theorem staysOn_last {screen : Screen} {events : List Event} (h : staysOn screen events m = true) :
    (session events m).screen = screen := by
  induction events generalizing m with
  | nil => exact of_decide_eq_true h
  | cons event rest ih =>
      rw [staysOn, Bool.and_eq_true] at h
      exact ih h.2

/-- In every session, each screen finds what it needs: the chosen sample is one of
the list, the arguments on the screen of steps can be read, and only a generator is
resumed, up to the limit. A run that is done stays as it is, and however a run has
gone, starting it over gives the state that it began with. -/
theorem session_sound (options : Options) (events : List Event) :
    let m := session events (initial options)
    Sound m ∧
    (m.screen = .step → m.done = true →
      m.react (.key .enter) = m ∧ m.react (.key (.text "n")) = m) ∧
    ∀ rest, m.screen = .args → staysOn .step rest (m.react (.key .enter)) = true →
      (session rest (m.react (.key .enter))).react (.key (.text "r")) = m.react (.key .enter) := by
  intro m
  have hm : Sound m := (sound_initial options).session events
  refine ⟨hm, fun hstep hdone => ⟨?_, ?_⟩, fun rest hargs hstays => ?_⟩
  · rw [react, update, confirm, hstep]
    exact advance_of_done hdone
  · simp [react, update, hstep, advance_of_done hdone]
  · -- the run begins with a start, which has read the arguments
    have henter : m.react (.key .enter) = m.start := by rw [react, update, confirm, hargs]
    rw [henter] at hstays ⊢
    have hsame : SameSetup m (session rest m.start) := (SameSetup.start m).trans (.session hstays)
    have hstarted : Sound m.start := hm.start (by rw [hargs]; decide)
    have hfirst : m.start.screen = .step := staysOn_first hstays
    obtain ⟨p, hp, -⟩ := hm.prepared (by rw [hargs]; decide)
    obtain ⟨args, hread⟩ := hstarted.readable hfirst
    rw [(SameSetup.start m).input] at hread
    have hrestart : (session rest m.start).react (.key (.text "r")) =
        (session rest m.start).start := by
      simp [react, update, staysOn_last hstays]
    rw [hrestart, start_congr hsame hp hread]

/-- A generator that has been resumed to its end, and is started over. -/
theorem session_sound_twoYields :
    let begun := session [.key .enter, .key .enter] (initial {})
    let ended := session [.key .enter, .key (.text "n"), .key .enter] begun
    ended.values = ["1", "2"] ∧ ended.done = true ∧ Sound ended ∧
      ended.react (.key (.text "r")) = begun ∧ begun.values = [] := by
  have hsound := (session_sound {} [.key .enter, .key .enter, .key .enter, .key (.text "n"),
    .key .enter]).1
  have hover := (session_sound {} [.key .enter]).2.2 [.key .enter, .key (.text "n"), .key .enter]
    (by decide +kernel) (by decide +kernel)
  exact ⟨by decide +kernel, by decide +kernel, hsound, hover, by decide +kernel⟩

end Resumable.Console.Stepper
