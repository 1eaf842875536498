import Mathlib.Data.List.Perm.Basic
import RisePir.Lib.Transitions

set_option autoImplicit false
set_option relaxedAutoImplicit false

/-! A list of items worked off by a bounded number of tasks. Tasks come back in any order, each with
an outcome of its own, and every one that comes back makes room for the next item. -/

namespace RisePir.Lib.Pool

open RisePir.Lib.Transitions

variable {α β : Type}

/-- The items that have no task yet, and those whose tasks are out. -/
structure Tasks (α : Type) where
  waiting : List α
  running : List α

namespace Tasks

def start (width : Nat) (items : List α) : Tasks α := ⟨items.drop width, items.take width⟩

/-- The task at `i` has come back. -/
def join (tasks : Tasks α) (i : Nat) : Tasks α :=
  ⟨tasks.waiting.tail, tasks.running.eraseIdx i ++ tasks.waiting.head?.toList⟩

/-- Any task may be the next to come back, with any outcome. -/
inductive Step : Tasks α → List (α × β) → Tasks α → Prop
  | joined {tasks : Tasks α} {i : Nat} {item : α} (out : tasks.running[i]? = some item)
      (outcome : β) : Step tasks [(item, outcome)] (tasks.join i)

/-- Every item is waiting, out or back, and only once. -/
theorem join_perm {tasks : Tasks α} {i : Nat} {item : α} (out : tasks.running[i]? = some item) :
    (item :: ((tasks.join i).running ++ (tasks.join i).waiting)).Perm
      (tasks.running ++ tasks.waiting) := by
  obtain ⟨inside, rfl⟩ := List.getElem?_eq_some_iff.mp out
  have taken : tasks.waiting.head?.toList ++ tasks.waiting.tail = tasks.waiting := by
    cases tasks.waiting <;> rfl
  rw [join, List.append_assoc, taken, ← List.cons_append]
  exact (List.getElem_cons_eraseIdx_perm inside).append_right _

theorem join_length {tasks : Tasks α} {i : Nat} {item : α} (out : tasks.running[i]? = some item) :
    (tasks.join i).running.length + 1 = tasks.running.length + min 1 tasks.waiting.length := by
  obtain ⟨inside, rfl⟩ := List.getElem?_eq_some_iff.mp out
  rw [join, List.length_append, List.length_eraseIdx_of_lt inside]
  cases tasks.waiting with
  | nil =>
      simp only [List.head?_nil, Option.toList_none, List.length_nil]
      omega
  | cons next rest =>
      simp only [List.head?_cons, Option.toList_some, List.length_cons, List.length_nil]
      omega

/-- What holds between any two completions. -/
structure Running (width : Nat) (items : List α) (back : List (α × β)) (tasks : Tasks α) : Prop where
  once : (back.map Prod.fst ++ (tasks.running ++ tasks.waiting)).Perm items
  bounded : tasks.running.length ≤ width
  filled : tasks.waiting ≠ [] → tasks.running.length = width

variable {width : Nat} {items : List α} {back : List (α × β)} {tasks : Tasks α}

theorem running_start (width : Nat) (items : List α) :
    Running (β := β) width items [] (start width items) := by
  constructor
  · simp [start]
  · rw [start, List.length_take]
    exact Nat.min_le_left _ _
  · intro more
    rw [start, List.length_take]
    rw [start, ne_eq, List.drop_eq_nil_iff] at more
    omega

theorem Running.step {shown : List (α × β)} {tasks' : Tasks α} (h : Running width items back tasks)
    (step : Step tasks shown tasks') : Running width items (back ++ shown) tasks' := by
  cases step with
  | @joined i item out outcome =>
      have length := join_length out
      have bounded := h.bounded
      constructor
      · rw [List.map_append, List.append_assoc]
        exact ((join_perm out).append_left _).trans h.once
      · omega
      · intro more
        have some_left : tasks.waiting.tail ≠ [] := more
        have here : tasks.waiting ≠ [] := by
          intro none_left
          rw [none_left] at some_left
          exact some_left rfl
        have full := h.filled here
        have := List.length_pos_of_ne_nil here
        omega

theorem running_run (run : Run Step (start width items) back tasks) :
    Running width items back tasks :=
  run.invariant (running_start width items) fun _ _ _ _ h step => h.step step

/-- While a task is out something can come back. -/
theorem step_of_running (busy : tasks.running ≠ []) :
    ∃ item, ∀ outcome : β, ∃ tasks', Step tasks [(item, outcome)] tasks' := by
  obtain ⟨item, rest, running⟩ := List.exists_cons_of_ne_nil busy
  have out : tasks.running[0]? = some item := by
    rw [running]
    rfl
  exact ⟨item, fun outcome => ⟨_, .joined out outcome⟩⟩

/-- With no task out, every item has come back exactly once. -/
theorem Running.done (h : Running width items back tasks) (wide : 0 < width)
    (idle : tasks.running = []) : (back.map Prod.fst).Perm items := by
  have nothing : tasks.waiting = [] := by
    by_contra more
    have full := h.filled more
    rw [idle, List.length_nil] at full
    omega
  simpa [idle, nothing] using h.once

/-- A task that comes back leaves fewer items to go. -/
theorem Step.fewer {shown : List (α × β)} {tasks' : Tasks α} (step : Step tasks shown tasks') :
    tasks'.running.length + tasks'.waiting.length < tasks.running.length + tasks.waiting.length := by
  cases step with
  | joined out outcome =>
      have lengths := (join_perm out).length_eq
      simp only [List.length_cons, List.length_append] at lengths
      omega

end Tasks

end RisePir.Lib.Pool
