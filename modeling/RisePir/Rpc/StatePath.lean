import Mathlib.Logic.Function.Basic
import RisePir.Rpc.State

set_option autoImplicit false
set_option relaxedAutoImplicit false

/-! The claim of a `--state` path. The advisory lock is a local variable of `spawn`: it guards
the bootstrap, and is dropped with the other locals when `spawn` returns its handle, while the
follow loop and the saver run on. -/

namespace RisePir.Rpc.StatePath

open RisePir.Rpc.State

/-- A path that names a file: what precedes the last dot of its name, and what follows it. -/
structure Path where
  stem : String
  extension : Option String
  deriving DecidableEq, Repr

def Path.display (path : Path) : String :=
  match path.extension with
  | some ext => s!"{path.stem}.{ext}"
  | none => path.stem

def Path.withExtension (path : Path) (ext : String) : Path := ⟨path.stem, some ext⟩

/-- The suffixes of the files kept beside the state file. -/
def RESERVED : List String := ["journal", "tmp", "lock", "audit"]

/-- What std's `TryLockError` says of a held lock. -/
def WOULD_BLOCK : String := "lock acquisition failed because the operation would block"

/-- `acquire_state_path`, on the outcome of creating the lock file and the process that holds
its lock. -/
def acquireStatePath (path : Path) (created : Except String Unit) (holder : Option Nat) :
    Except StateError Unit :=
  match RESERVED.find? fun reserved => path.extension = some reserved with
  | some reserved =>
      .error (.io (s!"--state {path.display} ends in .{reserved}, which this server derives as a " ++
        "sibling file's suffix for that same path — the two would collide and destroy the state " ++
        "file; pick any other extension (.bin is conventional)"))
  | none =>
      match created with
      | .error e => .error (.io e)
      | .ok () =>
          match holder with
          | none => .ok ()
          | some _ =>
              let lockPath := path.withExtension "lock"
              .error (.io (s!"another process already holds {lockPath.display} " ++
                s!"({WOULD_BLOCK}) — two writers on one --state path would interleave writes into " ++
                s!"the same {path.display}.tmp and destroy the good state file; stop the other " ++
                "process first (is a tmux session still running it?)"))

/-- Where a process is in its use of the path. -/
inductive Phase
  /-- Not started, exited or crashed. -/
  | absent
  /-- In `spawn`, before `acquire_state_path`. -/
  | starting
  /-- In `spawn`, past `acquire_state_path`: the local `_state_lock` holds the lock. -/
  | spawning
  /-- `spawn` has returned. The handle keeps the node and the saver, no field of it the lock. -/
  | serving
  deriving DecidableEq, Repr

/-- Past `acquire_state_path`, a process saves the state and appends to the journal: the fresh
bootstrap's files, the follow loop's appends, the autosaves and the save at shutdown. -/
def Phase.Writes (phase : Phase) : Prop := phase = .spawning ∨ phase = .serving

instance (phase : Phase) : Decidable phase.Writes := inferInstanceAs (Decidable (_ ∨ _))

/-- The processes on one state path, and which of them holds the advisory lock. -/
structure World where
  lock : Option Nat
  phase : Nat → Phase

inductive Event
  | call (i : Nat)
  | acquire (i : Nat) (created : Except String Unit)
  | returns (i : Nat)
  | save (i : Nat)
  | append (i : Nat)
  | stop (i : Nat)

namespace World

def initial : World := ⟨none, fun _ => .absent⟩

/-- The lock once the process `i` has dropped its `File`, or has ended. -/
def released (w : World) (i : Nat) : Option Nat := if w.lock = some i then none else w.lock

def enter (w : World) (i : Nat) (phase : Phase) : World :=
  { w with phase := Function.update w.phase i phase }

/-- One event; `none` when the process it names cannot take it. A process whose
`acquire_state_path` fails dies there. -/
def step (path : Path) (w : World) : Event → Option World
  | .call i => if w.phase i = .absent then some (w.enter i .starting) else none
  | .acquire i created =>
      if w.phase i = .starting then
        match acquireStatePath path created w.lock with
        | .ok () => some { w.enter i .spawning with lock := some i }
        | .error _ => some (w.enter i .absent)
      else none
  | .returns i =>
      if w.phase i = .spawning then some { w.enter i .serving with lock := w.released i } else none
  | .save i => if (w.phase i).Writes then some w else none
  | .append i => if (w.phase i).Writes then some w else none
  | .stop i =>
      if w.phase i = .absent then none else some { w.enter i .absent with lock := w.released i }

def run (path : Path) : World → List Event → Option World
  | w, [] => some w
  | w, e :: events => (w.step path e).bind fun w' => w'.run path events

/-- No two live processes are past `acquire_state_path` and able to write. -/
def Exclusive (w : World) : Prop := ∀ i j, (w.phase i).Writes → (w.phase j).Writes → i = j

/-- The process `i` gets past `acquire_state_path` while another one's `spawn` has returned. -/
def Overtakes (path : Path) (w : World) (i : Nat) (created : Except String Unit) : Prop :=
  w.phase i = .starting ∧ acquireStatePath path created w.lock = .ok () ∧ ∃ j, w.phase j = .serving

/-- The lock is held by the process that is past `acquire_state_path` in a running `spawn`. -/
def LockHeld (w : World) : Prop := ∀ i, w.lock = some i ↔ w.phase i = .spawning

end World

section Steps

variable {path : Path} {w w' : World}

@[simp] theorem enter_self (w : World) (i : Nat) (phase : Phase) :
    (w.enter i phase).phase i = phase := by
  simp [World.enter]

theorem enter_other (w : World) {i j : Nat} (phase : Phase) (h : j ≠ i) :
    (w.enter i phase).phase j = w.phase j := by
  simp [World.enter, h]

theorem acquire_free {created : Except String Unit} {holder : Option Nat}
    (h : acquireStatePath path created holder = .ok ()) : holder = none := by
  cases holder with
  | none => rfl
  | some i =>
      exfalso
      unfold acquireStatePath at h
      cases hr : RESERVED.find? fun reserved => path.extension = some reserved with
      | some reserved =>
          rw [hr] at h
          cases h
      | none =>
          rw [hr] at h
          cases created with
          | error e => cases h
          | ok u => cases h

theorem run_append {events more : List Event} :
    w.run path (events ++ more) = (w.run path events).bind fun mid => mid.run path more := by
  induction events generalizing w with
  | nil => rfl
  | cons e events ih =>
      simp only [List.cons_append, World.run]
      cases w.step path e with
      | none => rfl
      | some next => simpa using ih

theorem lockHeld_initial : World.initial.LockHeld := by
  intro i
  simp [World.initial]

/-- A process that neither holds the lock nor comes to hold it. -/
theorem lockHeld_enter {i : Nat} {phase : Phase} (held : w.LockHeld) (old : w.phase i ≠ .spawning)
    (new : phase ≠ .spawning) : (w.enter i phase).LockHeld := by
  intro j
  by_cases hj : j = i
  · subst hj
    rw [enter_self]
    have free : w.lock ≠ some j := fun h => old ((held j).mp h)
    exact ⟨fun h => absurd h free, fun h => absurd h new⟩
  · rw [enter_other w phase hj]
    exact held j

/-- A process whose `File` is dropped. -/
theorem lockHeld_release {i : Nat} {phase : Phase} (held : w.LockHeld) (new : phase ≠ .spawning) :
    World.LockHeld { w.enter i phase with lock := w.released i } := by
  intro j
  by_cases hj : j = i
  · subst hj
    have free : w.released j ≠ some j := by
      intro h
      unfold World.released at h
      split_ifs at h with owned
      exact owned h
    exact ⟨fun h => absurd h free, fun h => absurd (by simpa using h) new⟩
  · have same : w.released i = some j ↔ w.lock = some j := by
      unfold World.released
      split_ifs with owned
      · rw [owned]
        simp only [Option.some.injEq, false_iff]
        exact fun h => hj h.symm
      · rfl
    show w.released i = some j ↔ (w.enter i phase).phase j = .spawning
    rw [same, enter_other w phase hj]
    exact held j

theorem lockHeld_acquired {i : Nat} (held : w.LockHeld) (free : w.lock = none) :
    World.LockHeld { w.enter i .spawning with lock := some i } := by
  intro j
  by_cases hj : j = i
  · subst hj
    simp
  · show some i = some j ↔ (w.enter i .spawning).phase j = .spawning
    rw [enter_other w _ hj, ← held j, free]
    simp only [Option.some.injEq, reduceCtorEq, iff_false]
    exact fun h => hj h.symm

/-- The lock is where the phases say, after any event. -/
theorem lockHeld_step {e : Event} (held : w.LockHeld) (h : w.step path e = some w') :
    w'.LockHeld := by
  cases e with
  | call i =>
      simp only [World.step] at h
      split_ifs at h with absent
      cases h
      apply lockHeld_enter held
      · simp [absent]
      · simp
  | acquire i created =>
      simp only [World.step] at h
      split_ifs at h with starting
      cases acquired : acquireStatePath path created w.lock with
      | ok u =>
          rw [acquired] at h
          cases h
          exact lockHeld_acquired held (acquire_free acquired)
      | error e =>
          rw [acquired] at h
          cases h
          apply lockHeld_enter held
          · simp [starting]
          · simp
  | returns i =>
      simp only [World.step] at h
      split_ifs at h with spawning
      cases h
      apply lockHeld_release held
      simp
  | save i | append i =>
      simp only [World.step] at h
      split_ifs at h
      cases h
      exact held
  | stop i =>
      simp only [World.step] at h
      split_ifs at h
      cases h
      apply lockHeld_release held
      simp

theorem lockHeld_run {events : List Event} (held : w.LockHeld)
    (h : w.run path events = some w') : w'.LockHeld := by
  induction events generalizing w with
  | nil =>
      cases h
      exact held
  | cons e events ih =>
      simp only [World.run, Option.bind_eq_some_iff] at h
      obtain ⟨mid, step, rest⟩ := h
      exact ih (lockHeld_step held step) rest

/-- A process that does not write after its move leaves no new pair of writers. -/
theorem exclusive_enter {i : Nat} {phase : Phase} {lock : Option Nat} (exclusive : w.Exclusive)
    (idle : ¬ phase.Writes) : World.Exclusive { w.enter i phase with lock } := by
  have still : ∀ j, ((w.enter i phase).phase j).Writes → (w.phase j).Writes := by
    intro j hj
    by_cases hji : j = i
    · subst hji
      rw [enter_self] at hj
      exact absurd hj idle
    · rwa [enter_other w phase hji] at hj
  intro j k hj hk
  exact exclusive j k (still j hj) (still k hk)

/-- Nor does one that wrote before. -/
theorem exclusive_writer {i : Nat} {phase : Phase} {lock : Option Nat} (exclusive : w.Exclusive)
    (writer : (w.phase i).Writes) : World.Exclusive { w.enter i phase with lock } := by
  have before : ∀ j, ((w.enter i phase).phase j).Writes → (w.phase j).Writes := by
    intro j hj
    by_cases hji : j = i
    · subst hji
      exact writer
    · rwa [enter_other w phase hji] at hj
  intro j k hj hk
  exact exclusive j k (before j hj) (before k hk)

/-- The lock excludes the processes in `spawn`; those that have returned must be absent. -/
theorem exclusive_acquired {i : Nat} (held : w.LockHeld) (free : w.lock = none)
    (alone : ∀ j, w.phase j ≠ .serving) :
    World.Exclusive { w.enter i .spawning with lock := some i } := by
  have only : ∀ j, ((w.enter i .spawning).phase j).Writes → j = i := by
    intro j hj
    by_contra hji
    rw [enter_other w _ hji] at hj
    rcases hj with spawning | serving
    · have owned := (held j).mpr spawning
      rw [free] at owned
      cases owned
    · exact alone j serving
  intro j k hj hk
  rw [only j hj, only k hk]

/-- One event keeps the writers exclusive unless a process is overtaken. -/
theorem exclusive_step {e : Event} (held : w.LockHeld) (exclusive : w.Exclusive)
    (guarded : ∀ i created, e = .acquire i created → ¬ w.Overtakes path i created)
    (h : w.step path e = some w') : w'.Exclusive := by
  cases e with
  | call i =>
      simp only [World.step] at h
      split_ifs at h
      cases h
      apply exclusive_enter exclusive
      decide
  | acquire i created =>
      simp only [World.step] at h
      split_ifs at h with starting
      cases acquired : acquireStatePath path created w.lock with
      | ok u =>
          rw [acquired] at h
          cases h
          apply exclusive_acquired held (acquire_free acquired)
          intro j serving
          exact guarded i created rfl ⟨starting, acquired, j, serving⟩
      | error e =>
          rw [acquired] at h
          cases h
          apply exclusive_enter exclusive
          decide
  | returns i =>
      simp only [World.step] at h
      split_ifs at h with spawning
      cases h
      apply exclusive_writer exclusive
      exact .inl spawning
  | save i | append i =>
      simp only [World.step] at h
      split_ifs at h
      cases h
      exact exclusive
  | stop i =>
      simp only [World.step] at h
      split_ifs at h
      cases h
      apply exclusive_enter exclusive
      decide

/-- Once overtaken, a returned process and the one in `spawn` both write. -/
theorem not_exclusive_of_overtakes {i : Nat} {created : Except String Unit}
    (overtakes : w.Overtakes path i created) :
    ∃ after, w.step path (.acquire i created) = some after ∧ ¬ after.Exclusive := by
  obtain ⟨starting, acquired, j, serving⟩ := overtakes
  refine ⟨{ w.enter i .spawning with lock := some i }, ?_, ?_⟩
  · simp [World.step, starting, acquired]
  · intro exclusive
    have other : j ≠ i := by
      rintro rfl
      rw [starting] at serving
      cases serving
    apply other
    apply exclusive j i
    · right
      show (w.enter i .spawning).phase j = .serving
      rw [enter_other w _ other, serving]
    · left
      exact enter_self w i .spawning

end Steps

section History

/-- What an event does to the lock's holder. -/
def lockAfter (path : Path) (holder : Option Nat) : Event → Option Nat
  | .acquire i created => if acquireStatePath path created holder = .ok () then some i else holder
  | .returns i => if holder = some i then none else holder
  | .stop i => if holder = some i then none else holder
  | .call _ => holder
  | .save _ => holder
  | .append _ => holder

/-- The holder of the lock after the events: the last one to get past `acquire_state_path`, unless
its `spawn` has returned or it has ended since. -/
def holder (path : Path) (events : List Event) : Option Nat := events.foldl (lockAfter path) none

/-- `spawn` has returned to the process, which has not ended since. -/
def Returned (events : List Event) (j : Nat) : Prop :=
  ∃ before after, events = before ++ .returns j :: after ∧ .stop j ∉ after

/-- The next process gets past `acquire_state_path` while another one lives whose `spawn` has
returned. -/
def Overtaken (path : Path) (seen : List Event) (created : Except String Unit) : Prop :=
  acquireStatePath path created (holder path seen) = .ok () ∧ ∃ j, Returned seen j

variable {path : Path} {w w' : World} {e : Event}

theorem lock_step (h : w.step path e = some w') : w'.lock = lockAfter path w.lock e := by
  cases e with
  | acquire i created =>
      simp only [World.step] at h
      split_ifs at h
      rw [lockAfter]
      cases acquired : acquireStatePath path created w.lock with
      | ok u =>
          rw [acquired] at h
          cases h
          exact (if_pos rfl).symm
      | error e =>
          rw [acquired] at h
          cases h
          exact (if_neg (by simp)).symm
  | call i | returns i | save i | append i =>
      simp only [World.step] at h
      split_ifs at h
      cases h
      rfl
  | stop i =>
      simp only [World.step] at h
      split_ifs at h
      cases h
      rfl

theorem lock_run {events : List Event} (h : World.initial.run path events = some w) :
    w.lock = holder path events := by
  induction events using List.reverseRecOn generalizing w with
  | nil =>
      cases h
      rfl
  | append_singleton seen e ih =>
      rw [run_append, Option.bind_eq_some_iff] at h
      obtain ⟨mid, before, last⟩ := h
      have step : mid.step path e = some w := by simpa [World.run] using last
      rw [lock_step step, ih before, holder, holder, List.foldl_append]
      rfl

theorem not_returned_nil (j : Nat) : ¬ Returned [] j := by
  rintro ⟨before, after, split, -⟩
  simp at split

/-- One more event: the process returns with it, or had returned and does not end with it. -/
theorem returned_append {seen : List Event} {j : Nat} :
    Returned (seen ++ [e]) j ↔ e = .returns j ∨ Returned seen j ∧ e ≠ .stop j := by
  constructor
  · rintro ⟨before, after, split, running⟩
    rcases List.eq_nil_or_concat after with rfl | ⟨front, last, rfl⟩
    · exact .inl (List.append_inj' split rfl |>.2 |> List.cons.inj |>.1)
    · rw [List.concat_eq_append] at split running
      rw [← List.cons_append, ← List.append_assoc] at split
      obtain ⟨same, final⟩ := List.append_inj' split rfl
      obtain ⟨rfl, -⟩ := List.cons.inj final
      rw [List.mem_append, List.mem_singleton, not_or] at running
      exact .inr ⟨⟨before, front, same, running.1⟩, fun ends => running.2 ends.symm⟩
  · rintro (rfl | ⟨⟨before, after, rfl, running⟩, lives⟩)
    · exact ⟨seen, [], rfl, by simp⟩
    · refine ⟨before, after ++ [e], by simp, ?_⟩
      rw [List.mem_append, List.mem_singleton, not_or]
      exact ⟨running, fun ends => lives ends.symm⟩

/-- The processes that serve after a step are those that return with it and those that served and
do not end with it. -/
theorem serving_step (h : w.step path e = some w') (j : Nat) :
    w'.phase j = .serving ↔ e = .returns j ∨ w.phase j = .serving ∧ e ≠ .stop j := by
  have moved : ∀ (i : Nat) (phase : Phase),
      (w.enter i phase).phase j = if j = i then phase else w.phase j :=
    fun i phase => Function.update_apply w.phase i phase j
  cases e with
  | call i =>
      simp only [World.step] at h
      split_ifs at h with absent
      cases h
      rw [moved]
      by_cases here : j = i
      · simp [here, absent]
      · simp [here]
  | acquire i created =>
      simp only [World.step] at h
      split_ifs at h with starting
      have enters : ∀ phase, phase ≠ .serving → ((w.enter i phase).phase j = .serving ↔
          Event.acquire i created = .returns j ∨
            w.phase j = .serving ∧ Event.acquire i created ≠ .stop j) := by
        intro phase other
        rw [moved]
        by_cases here : j = i
        · simp [here, other, starting]
        · simp [here]
      cases acquired : acquireStatePath path created w.lock with
      | ok u =>
          rw [acquired] at h
          cases h
          exact enters .spawning (by decide)
      | error e =>
          rw [acquired] at h
          cases h
          exact enters .absent (by decide)
  | returns i =>
      simp only [World.step] at h
      split_ifs at h with spawning
      cases h
      show (w.enter i .serving).phase j = .serving ↔ _
      rw [moved]
      by_cases here : j = i
      · simp [here]
      · simp [here, Ne.symm here]
  | save i | append i =>
      simp only [World.step] at h
      split_ifs at h
      cases h
      simp
  | stop i =>
      simp only [World.step] at h
      split_ifs at h
      cases h
      show (w.enter i .absent).phase j = .serving ↔ _
      rw [moved]
      by_cases here : j = i
      · simp [here]
      · simp [here, Ne.symm here]

theorem serving_run {events : List Event} (h : World.initial.run path events = some w) (j : Nat) :
    w.phase j = .serving ↔ Returned events j := by
  induction events using List.reverseRecOn generalizing w with
  | nil =>
      cases h
      exact iff_of_false (by simp [World.initial]) (not_returned_nil j)
  | append_singleton seen e ih =>
      rw [run_append, Option.bind_eq_some_iff] at h
      obtain ⟨mid, before, last⟩ := h
      have step : mid.step path e = some w := by simpa [World.run] using last
      rw [serving_step step, ih before, returned_append]

/-- An acquiring event that can come is overtaking by the events before it exactly if it is by the
state they lead to. -/
theorem overtakes_iff {seen : List Event} (h : World.initial.run path seen = some w) (i : Nat)
    (created : Except String Unit) :
    w.Overtakes path i created ↔
      (World.initial.run path (seen ++ [.acquire i created])).isSome ∧ Overtaken path seen created := by
  rw [World.Overtakes, Overtaken, ← lock_run h]
  simp only [serving_run h]
  rw [run_append, h]
  have comes : (World.run path w [.acquire i created]).isSome ↔ w.phase i = .starting := by
    simp only [World.run, World.step]
    by_cases starting : w.phase i = .starting
    · rw [if_pos starting]
      cases acquireStatePath path created w.lock <;> simp [starting]
    · simp [starting]
  simp only [Option.bind_some, comes]

end History

/-- Whatever the path and the events, from no process at all: the writers are exclusive in every
state reached exactly when no process gets past `acquire_state_path` while another one, whose
`spawn` has returned, is alive. -/
theorem exclusive_iff_never_overtaken (path : Path) (events : List Event) :
    (∀ seen w, seen <+: events → World.initial.run path seen = some w → w.Exclusive) ↔
      ∀ seen i created, seen ++ [.acquire i created] <+: events →
        (World.initial.run path (seen ++ [.acquire i created])).isSome →
          ¬ Overtaken path seen created := by
  constructor
  · intro always seen i created taken comes overtaken
    obtain ⟨w, reached⟩ : ∃ w, World.initial.run path seen = some w := by
      rw [run_append] at comes
      cases h : World.initial.run path seen with
      | none =>
          rw [h] at comes
          cases comes
      | some w => exact ⟨w, rfl⟩
    obtain ⟨after, step, shared⟩ :=
      not_exclusive_of_overtakes ((overtakes_iff reached i created).mpr ⟨comes, overtaken⟩)
    apply shared
    apply always (seen ++ [.acquire i created]) after taken
    rw [run_append, reached]
    simp [World.run, step]
  · intro never seen
    induction seen using List.reverseRecOn with
    | nil =>
        intro w _ reached
        cases reached
        intro i j writes
        simp [World.initial, Phase.Writes] at writes
    | append_singleton seen e ih =>
        intro w taken reached
        rw [run_append, Option.bind_eq_some_iff] at reached
        obtain ⟨mid, before, last⟩ := reached
        have step : mid.step path e = some w := by
          simpa [World.run] using last
        have earlier : seen <+: events := (List.prefix_append seen [e]).trans taken
        apply exclusive_step (lockHeld_run lockHeld_initial before) (ih mid earlier before) _ step
        rintro i created rfl overtakes
        obtain ⟨comes, overtaken⟩ := (overtakes_iff before i created).mp overtakes
        exact never seen i created taken comes overtaken

private def statePath : Path := ⟨"state", some "bin"⟩

/-- One process returns from `spawn`, and a second one is started on its path. -/
private def doubleStart : List Event :=
  [.call 0, .acquire 0 (.ok ()), .returns 0, .call 1, .acquire 1 (.ok ()), .save 0, .save 1]

/-- The second process passes `acquire_state_path`, and both save. -/
theorem returned_process_overtaken : ∃ w, World.initial.run statePath doubleStart = some w ∧
    (w.phase 0).Writes ∧ (w.phase 1).Writes ∧ ¬ w.Exclusive := by
  refine ⟨⟨some 1, (((World.initial.enter 0 .starting).enter 0 .spawning).enter 0 .serving |>.enter 1
    .starting |>.enter 1 .spawning).phase⟩, ?_, ?_, ?_, ?_⟩
  · rfl
  · decide
  · decide
  · intro exclusive
    have same := exclusive 0 1 (by decide) (by decide)
    cases same

end RisePir.Rpc.StatePath
