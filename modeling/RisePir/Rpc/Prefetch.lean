import Mathlib.Algebra.Group.Nat.Defs
import Mathlib.Data.List.Perm.Subperm
import Mathlib.Data.List.Range
import Mathlib.Order.Compare
import Mathlib.Order.Std
import Std.Data.ExtTreeMap.Lemmas

set_option autoImplicit false
set_option relaxedAutoImplicit false

/-! The follow loop's bounded lookahead over block fetches. A spawned fetch is a handle in
the window until it is collected; the tasks behind the handles finish in any order. -/

namespace RisePir.Rpc.Prefetch

open Std (ExtTreeMap)

/-- Why a prefetched block did not arrive: what the feed returned, or that the task did not
run to completion. -/
inductive FetchFailure (ε : Type)
  | feed (err : ε)
  | task (detail : String)
  deriving DecidableEq, Repr

variable {α ε : Type}

/-- A spawned task: the block it calls `block_update` for, and what it returned once done. -/
structure JoinHandle (α ε : Type) where
  height : Nat
  joined : Option (Except (FetchFailure ε) α)
  deriving DecidableEq, Repr

structure BlockPrefetch (α ε : Type) where
  depth : Nat
  head : Nat
  inflight : ExtTreeMap Nat (JoinHandle α ε)
  depth_pos : 0 < depth

/-- A `u64` addition that stops at `u64::MAX`. -/
def saturatingAdd (a b : Nat) : Nat := min (a + b) (2 ^ 64 - 1)

namespace BlockPrefetch

/-- `depth` is clamped to at least 1. -/
def new (depth : Nat) : BlockPrefetch α ε where
  depth := max depth 1
  head := 0
  inflight := ∅
  depth_pos := by omega

/-- `set_head`: what now lies above the head is aborted. -/
def setHead (f : BlockPrefetch α ε) (head : Nat) : BlockPrefetch α ε :=
  { f with head, inflight := f.inflight.filter fun b _ => decide (b < saturatingAdd head 1) }

/-- The last block of the window that starts at `n`. -/
def through (f : BlockPrefetch α ε) (n : Nat) : Nat :=
  max (min (saturatingAdd n (f.depth - 1)) f.head) n

/-- `entry(b).or_insert_with`: the blocks of the list that have no task yet get one. -/
def spawnEach (inflight : ExtTreeMap Nat (JoinHandle α ε)) (blocks : List Nat) :
    ExtTreeMap Nat (JoinHandle α ε) :=
  blocks.foldl (fun m b => m.insertIfNew b ⟨b, none⟩) inflight

/-- The blocks a call to `fetch(n)` spawns a task for. -/
def missing (f : BlockPrefetch α ε) (n : Nat) : List Nat :=
  (List.range' n (f.through n + 1 - n)).filter fun b => !f.inflight.contains b

/-- `fetch(n)` up to the await: the window topped up. -/
def fill (f : BlockPrefetch α ε) (n : Nat) : BlockPrefetch α ε :=
  { f with inflight := spawnEach f.inflight (List.range' n (f.through n + 1 - n)) }

/-- `fetch(n)` behind the await, when block `n`'s handle has joined: the slot is cleared. -/
def collect (f : BlockPrefetch α ε) (n : Nat) : BlockPrefetch α ε :=
  { f with inflight := f.inflight.erase n }

/-- A task of the window runs to its end. -/
def finish (f : BlockPrefetch α ε) (b : Nat) (handle : JoinHandle α ε)
    (r : Except (FetchFailure ε) α) : BlockPrefetch α ε :=
  { f with inflight := f.inflight.insert b { handle with joined := some r } }

end BlockPrefetch

/-- One `block_update` call: its block, the block being asked for, and the head then. -/
structure Call where
  height : Nat
  asked : Nat
  head : Nat
  deriving DecidableEq, Repr

/-- The follow loop and its prefetcher: the block it asks for, whether it awaits it, every
call made to the feed, every result the feed gave, and what the loop was given. -/
structure Loop (α ε : Type) where
  prefetch : BlockPrefetch α ε
  asked : Nat
  awaiting : Bool
  calls : List Call
  returned : List (Nat × α)
  delivered : List (Nat × α)

namespace Loop

def start (depth first : Nat) : Loop α ε where
  prefetch := .new depth
  asked := first
  awaiting := false
  calls := []
  returned := []
  delivered := []

/-- One event: a head is published, the loop asks, a task ends in any way, the awaited
handle joins with a block or without one, or the waiting future is dropped. -/
inductive Step : Loop α ε → Loop α ε → Prop
  | head (l : Loop α ε) (head : Nat) (idle : l.awaiting = false) :
      Step l { l with prefetch := l.prefetch.setHead head }
  | ask (l : Loop α ε) (idle : l.awaiting = false) :
      Step l { l with
        prefetch := l.prefetch.fill l.asked
        awaiting := true
        calls := l.calls ++
          (l.prefetch.missing l.asked).map fun b => ⟨b, l.asked, l.prefetch.head⟩ }
  | returns (l : Loop α ε) (b : Nat) (handle : JoinHandle α ε) (out : α)
      (present : l.prefetch.inflight[b]? = some handle) (running : handle.joined = none) :
      Step l { l with
        prefetch := l.prefetch.finish b handle (.ok out)
        returned := l.returned ++ [(handle.height, out)] }
  | breaks (l : Loop α ε) (b : Nat) (handle : JoinHandle α ε) (e : FetchFailure ε)
      (present : l.prefetch.inflight[b]? = some handle) (running : handle.joined = none) :
      Step l { l with prefetch := l.prefetch.finish b handle (.error e) }
  | deliver (l : Loop α ε) (handle : JoinHandle α ε) (out : α) (waiting : l.awaiting = true)
      (present : l.prefetch.inflight[l.asked]? = some handle) (joined : handle.joined = some (.ok out)) :
      Step l { l with
        prefetch := l.prefetch.collect l.asked
        asked := l.asked + 1
        awaiting := false
        delivered := l.delivered ++ [(l.asked, out)] }
  | retry (l : Loop α ε) (handle : JoinHandle α ε) (e : FetchFailure ε) (waiting : l.awaiting = true)
      (present : l.prefetch.inflight[l.asked]? = some handle) (joined : handle.joined = some (.error e)) :
      Step l { l with prefetch := l.prefetch.collect l.asked, awaiting := false }
  | drop (l : Loop α ε) (waiting : l.awaiting = true) : Step l { l with awaiting := false }

/-- A run from a fresh prefetcher. -/
inductive Run (depth first : Nat) : Loop α ε → Prop
  | start : Run depth first (Loop.start depth first)
  | step {l l' : Loop α ε} (run : Run depth first l) (next : Step l l') : Run depth first l'

end Loop

namespace BlockPrefetch

variable {f : BlockPrefetch α ε}

/-- A block of the filled window has the handle it had before, or a fresh one. -/
theorem spawnEach_getElem? (inflight : ExtTreeMap Nat (JoinHandle α ε)) (blocks : List Nat) (b : Nat) :
    (spawnEach inflight blocks)[b]? =
      if b ∈ blocks then some (inflight[b]?.getD ⟨b, none⟩) else inflight[b]? := by
  induction blocks generalizing inflight with
  | nil => simp [spawnEach]
  | cons c blocks ih =>
      rw [spawnEach, List.foldl_cons, ← spawnEach, ih, ExtTreeMap.getElem?_insertIfNew]
      by_cases hcb : c = b
      · subst hcb
        cases hget : inflight[c]? with
        | none =>
            have absent : c ∉ inflight := fun hmem => by
              rw [ExtTreeMap.mem_iff_isSome_getElem?, hget] at hmem
              cases hmem
            simp [absent]
        | some handle =>
            have present : c ∈ inflight := by
              rw [ExtTreeMap.mem_iff_isSome_getElem?, hget]
              rfl
            simp [present]
      · have hbc : b ≠ c := fun h => hcb h.symm
        simp [hcb, hbc]

theorem mem_window {n b : Nat} : b ∈ List.range' n (f.through n + 1 - n) ↔ n ≤ b ∧ b ≤ f.through n := by
  have : n ≤ f.through n := Nat.le_max_right _ _
  rw [List.mem_range'_1]
  omega

/-- A block of the window is the one asked for, or no further than `depth` and the head. -/
theorem window_bound {n b : Nat} (h : n ≤ b ∧ b ≤ f.through n) :
    b < n + f.depth ∧ (b = n ∨ b ≤ f.head) := by
  have := f.depth_pos
  unfold through saturatingAdd at h
  omega

end BlockPrefetch

namespace Loop

/-- What holds between the events. Every handle lies in the window of the block asked for,
runs the fetch of its own key, and once joined holds what the feed returned for that key;
an awaited handle is present; and the delivered blocks are all blocks from the first on. -/
structure InOrder (first : Nat) (l : Loop α ε) : Prop where
  window : ∀ b handle, l.prefetch.inflight[b]? = some handle →
    l.asked ≤ b ∧ b < l.asked + l.prefetch.depth ∧ (b = l.asked ∨ b ≤ l.prefetch.head)
  own : ∀ b handle, l.prefetch.inflight[b]? = some handle → handle.height = b ∧
    ∀ out, handle.joined = some (.ok out) → (b, out) ∈ l.returned
  awaited : l.awaiting = true → ∃ handle, l.prefetch.inflight[l.asked]? = some handle
  heights : l.delivered.map Prod.fst = List.range' first l.delivered.length
  asked_eq : l.asked = first + l.delivered.length
  genuine : ∀ e ∈ l.delivered, e ∈ l.returned
  issued : ∀ c ∈ l.calls, c.height = c.asked ∨ c.height ≤ c.head

variable {first : Nat} {l l' : Loop α ε}

private theorem InOrder.kept (h : InOrder first l) (head : Nat)
    (inflight : ExtTreeMap Nat (JoinHandle α ε)) (sub : ∀ b handle, inflight[b]? = some handle →
      l.prefetch.inflight[b]? = some handle ∧ (b = l.asked ∨ b ≤ head)) :
    InOrder first { l with
      prefetch := { l.prefetch with head, inflight }
      awaiting := false } where
  window b handle hb :=
    ⟨(h.window b handle (sub b handle hb).1).1, (h.window b handle (sub b handle hb).1).2.1,
      (sub b handle hb).2⟩
  own b handle hb := h.own b handle (sub b handle hb).1
  awaited waiting := by cases waiting
  heights := h.heights
  asked_eq := h.asked_eq
  genuine := h.genuine
  issued := h.issued

private theorem getElem?_of_erase {m : ExtTreeMap Nat (JoinHandle α ε)} {n b : Nat}
    {handle : JoinHandle α ε} (hb : (m.erase n)[b]? = some handle) :
    n ≠ b ∧ m[b]? = some handle := by
  rw [ExtTreeMap.getElem?_erase] at hb
  split at hb
  · cases hb
  · rename_i hne
    exact ⟨by simpa using hne, hb⟩

/-- An ended task's handle stays where it was. -/
private theorem InOrder.finish (h : InOrder first l) {b : Nat} {handle : JoinHandle α ε}
    (present : l.prefetch.inflight[b]? = some handle) (r : Except (FetchFailure ε) α)
    {returned : List (Nat × α)} (grown : ∀ e ∈ l.returned, e ∈ returned)
    (recorded : ∀ out, r = .ok out → (handle.height, out) ∈ returned) :
    InOrder first { l with prefetch := l.prefetch.finish b handle r, returned } := by
  have cases : ∀ b' handle', (l.prefetch.finish b handle r).inflight[b']? = some handle' →
      (b' = b ∧ handle' = { handle with joined := some r }) ∨
        l.prefetch.inflight[b']? = some handle' := by
    intro b' handle' hb
    rw [BlockPrefetch.finish, ExtTreeMap.getElem?_insert] at hb
    split at hb
    · rename_i heq
      cases hb
      exact .inl ⟨(compare_eq_iff_eq.mp heq).symm, rfl⟩
    · exact .inr hb
  refine ⟨fun b' handle' hb => ?_, fun b' handle' hb => ?_, fun waiting => ?_, h.heights, h.asked_eq,
    fun e he => grown e (h.genuine e he), h.issued⟩
  · rcases cases b' handle' hb with ⟨rfl, -⟩ | hb
    · exact h.window b' handle present
    · exact h.window b' handle' hb
  · rcases cases b' handle' hb with ⟨rfl, rfl⟩ | hb
    · obtain ⟨height, -⟩ := h.own b' handle present
      refine ⟨height, fun out hout => ?_⟩
      have := recorded out (Option.some.inj hout)
      rwa [height] at this
    · exact ⟨(h.own b' handle' hb).1, fun out hout => grown _ ((h.own b' handle' hb).2 out hout)⟩
  · obtain ⟨handle', hget⟩ := h.awaited waiting
    change ∃ handle', (l.prefetch.finish b handle r).inflight[l.asked]? = some handle'
    rw [BlockPrefetch.finish, ExtTreeMap.getElem?_insert]
    split
    · exact ⟨_, rfl⟩
    · exact ⟨handle', hget⟩

private theorem InOrder.ask (h : InOrder first l) : InOrder first { l with
    prefetch := l.prefetch.fill l.asked
    awaiting := true
    calls := l.calls ++ (l.prefetch.missing l.asked).map fun b => ⟨b, l.asked, l.prefetch.head⟩ } := by
  have get : ∀ b, (l.prefetch.fill l.asked).inflight[b]? =
      if l.asked ≤ b ∧ b ≤ l.prefetch.through l.asked then
        some (l.prefetch.inflight[b]?.getD ⟨b, none⟩) else l.prefetch.inflight[b]? := by
    intro b
    rw [BlockPrefetch.fill, BlockPrefetch.spawnEach_getElem?]
    simp only [BlockPrefetch.mem_window]
  refine ⟨fun b handle hb => ?_, fun b handle hb => ?_, fun _ => ?_, h.heights, h.asked_eq, h.genuine,
    fun c hc => ?_⟩
  · change (l.prefetch.fill l.asked).inflight[b]? = _ at hb
    rw [get] at hb
    split at hb
    · rename_i inside
      exact ⟨inside.1, BlockPrefetch.window_bound inside⟩
    · exact h.window b handle hb
  · change (l.prefetch.fill l.asked).inflight[b]? = _ at hb
    rw [get] at hb
    split at hb
    · cases hold : l.prefetch.inflight[b]? with
      | none =>
          rw [hold] at hb
          cases hb
          exact ⟨rfl, fun out hout => by cases hout⟩
      | some old =>
          rw [hold] at hb
          cases hb
          exact h.own b old hold
    · exact h.own b handle hb
  · change ∃ handle, (l.prefetch.fill l.asked).inflight[l.asked]? = some handle
    rw [get, if_pos ⟨Nat.le_refl _, Nat.le_max_right _ _⟩]
    exact ⟨_, rfl⟩
  · rcases List.mem_append.mp hc with hc | hc
    · exact h.issued c hc
    · obtain ⟨b, hb, rfl⟩ := List.mem_map.mp hc
      exact (BlockPrefetch.window_bound (BlockPrefetch.mem_window.mp (List.mem_of_mem_filter hb))).2

private theorem InOrder.deliver (h : InOrder first l) {handle : JoinHandle α ε} {out : α}
    (present : l.prefetch.inflight[l.asked]? = some handle)
    (joined : handle.joined = some (.ok out)) : InOrder first { l with
      prefetch := l.prefetch.collect l.asked
      asked := l.asked + 1
      awaiting := false
      delivered := l.delivered ++ [(l.asked, out)] } := by
  refine ⟨fun b handle' hb => ?_, fun b handle' hb => ?_, fun waiting => (by cases waiting), ?_, ?_,
    fun e he => ?_, h.issued⟩
  · obtain ⟨hne, hb⟩ := getElem?_of_erase hb
    have bound := h.window b handle' hb
    change l.asked + 1 ≤ b ∧ b < l.asked + 1 + l.prefetch.depth ∧
      (b = l.asked + 1 ∨ b ≤ l.prefetch.head)
    omega
  · exact h.own b handle' (getElem?_of_erase hb).2
  · rw [List.map_append, h.heights, List.length_append, List.length_singleton,
      List.range'_concat, List.map_singleton, h.asked_eq, Nat.one_mul]
  · change l.asked + 1 = first + (l.delivered ++ [(l.asked, out)]).length
    rw [h.asked_eq, List.length_append, List.length_singleton, Nat.add_assoc]
  · rcases List.mem_append.mp he with he | he
    · exact h.genuine e he
    · rw [List.mem_singleton.mp he]
      exact (h.own l.asked handle present).2 out joined

theorem InOrder.step (h : InOrder first l) (next : Step l l') : InOrder first l' := by
  cases next with
  | head head idle =>
      have kept := h.kept head
        (l.prefetch.inflight.filter fun b _ => decide (b < saturatingAdd head 1))
        fun b handle hb => by
          rw [ExtTreeMap.getElem?_filter'] at hb
          obtain ⟨hget, hlt⟩ := Option.filter_eq_some_iff.mp hb
          refine ⟨hget, .inr ?_⟩
          rw [decide_eq_true_eq, saturatingAdd] at hlt
          omega
      exact { kept with awaited := fun waiting => by rw [idle] at waiting; cases waiting }
  | ask idle => exact h.ask
  | returns b handle out present running =>
      refine h.finish present _ (fun e he => List.mem_append_left _ he) fun out' hout => ?_
      cases hout
      simp
  | breaks b handle e present running =>
      exact h.finish present _ (fun e he => he) fun out hout => by cases hout
  | deliver handle out waiting present joined => exact h.deliver present joined
  | retry handle e waiting present joined =>
      exact h.kept _ _ fun b handle' hb => ⟨(getElem?_of_erase hb).2,
        (h.window b handle' (getElem?_of_erase hb).2).2.2⟩
  | drop waiting => exact h.kept _ _ fun b handle hb => ⟨hb, (h.window b handle hb).2.2⟩

theorem Run.inOrder {depth : Nat} (run : Run depth first l) : InOrder first l := by
  induction run with
  | start =>
      exact ⟨fun b handle hb => by simp [Loop.start, BlockPrefetch.new] at hb,
        fun b handle hb => by simp [Loop.start, BlockPrefetch.new] at hb,
        fun waiting => (by cases waiting), rfl, rfl, by simp [Loop.start], by simp [Loop.start]⟩
  | step run next ih => exact ih.step next

theorem Run.depth_eq {depth : Nat} (run : Run depth first l) : l.prefetch.depth = max depth 1 := by
  induction run with
  | start => rfl
  | step run next ih => cases next <;> exact ih

/-- At most `depth` tasks are outstanding. -/
theorem InOrder.size_le (h : InOrder first l) : l.prefetch.inflight.size ≤ l.prefetch.depth := by
  have keys : ∀ b ∈ l.prefetch.inflight.keys, b ∈ List.range' l.asked l.prefetch.depth := by
    intro b hb
    obtain ⟨handle, hget⟩ : ∃ handle, l.prefetch.inflight[b]? = some handle := by
      rw [← Option.isSome_iff_exists, ← ExtTreeMap.mem_iff_isSome_getElem?]
      exact ExtTreeMap.mem_keys.mp hb
    have bound := h.window b handle hget
    rw [List.mem_range'_1]
    omega
  have nodup : l.prefetch.inflight.keys.Nodup := ExtTreeMap.nodup_keys
  have le := (nodup.subperm keys).length_le
  rwa [ExtTreeMap.length_keys, List.length_range'] at le

end Loop

/-- However the tasks run and the heads move: the blocks delivered are all blocks from the
first on, each as `block_update` returned it for that block; no more than `depth` tasks are
outstanding, none of them below the block asked for or, that block apart, beyond the head,
and none was spawned beyond it; and an awaited block has its handle in the window. -/
theorem fetch_in_order {depth first : Nat} {l : Loop α ε} (run : Loop.Run depth first l) :
    l.delivered.map Prod.fst = List.range' first l.delivered.length ∧
      (∀ e ∈ l.delivered, e ∈ l.returned) ∧
      l.prefetch.inflight.size ≤ max depth 1 ∧
      (∀ b ∈ l.prefetch.inflight, l.asked ≤ b ∧ (b = l.asked ∨ b ≤ l.prefetch.head)) ∧
      (∀ c ∈ l.calls, c.height = c.asked ∨ c.height ≤ c.head) ∧
      (l.awaiting = true → l.asked ∈ l.prefetch.inflight) := by
  have inOrder := run.inOrder
  refine ⟨inOrder.heights, inOrder.genuine, run.depth_eq ▸ inOrder.size_le, fun b hb => ?_,
    inOrder.issued, fun waiting => ?_⟩
  · obtain ⟨handle, hget⟩ := Option.isSome_iff_exists.mp (ExtTreeMap.mem_iff_isSome_getElem?.mp hb)
    exact ⟨(inOrder.window b handle hget).1, (inOrder.window b handle hget).2.2⟩
  · obtain ⟨handle, hget⟩ := inOrder.awaited waiting
    rw [ExtTreeMap.mem_iff_isSome_getElem?, hget]
    rfl

private def asked : Loop Nat Unit :=
  { (Loop.start 2 1 : Loop Nat Unit) with
    prefetch := ((BlockPrefetch.new 2).setHead 2).fill 1
    awaiting := true
    calls := [⟨1, 1, 2⟩, ⟨2, 1, 2⟩] }

private theorem asked_run : Loop.Run 2 1 asked :=
  .step (.step .start (.head _ 2 rfl)) (.ask _ rfl)

/-- Block 2's task ends before block 1's, and the loop gets block 1. -/
theorem fetch_in_order_laterFirst : ∃ l : Loop Nat Unit,
    l.returned = [(2, 20), (1, 10)] ∧ l.delivered = [(1, 10)] ∧ l.asked = 2 ∧
      l.prefetch.inflight.size ≤ 2 ∧ ∀ b ∈ l.prefetch.inflight,
        l.asked ≤ b ∧ (b = l.asked ∨ b ≤ l.prefetch.head) := by
  have second : Loop.Step asked _ := .returns asked 2 ⟨2, none⟩ 20 (by decide) rfl
  have first := Loop.Step.returns { asked with
    prefetch := asked.prefetch.finish 2 ⟨2, none⟩ (.ok 20)
    returned := [(2, 20)] } 1 ⟨1, none⟩ 10 (by decide) rfl
  have given := Loop.Step.deliver { asked with
    prefetch := (asked.prefetch.finish 2 ⟨2, none⟩ (.ok 20)).finish 1 ⟨1, none⟩ (.ok 10)
    returned := [(2, 20), (1, 10)] } ⟨1, some (.ok 10)⟩ 10 rfl (by decide) rfl
  obtain ⟨-, -, size, near, -⟩ := fetch_in_order
    (.step (.step (.step asked_run second) first) given)
  exact ⟨_, rfl, rfl, rfl, size, near⟩

end RisePir.Rpc.Prefetch
