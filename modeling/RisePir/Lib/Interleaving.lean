import Mathlib.Logic.Function.Basic
import Mathlib.Logic.Relation

set_option autoImplicit false
set_option relaxedAutoImplicit false

/-! Programs that run at the same time in one world. A program asks its surroundings and goes on with
the answer; a schedule lets any program take its next step. What a program says of the world when it
returns holds under every schedule if it is proved against what the others may do between its asks. -/

namespace RisePir.Lib.Interleaving

/-- A program that asks its surroundings something and goes on with the answer. -/
inductive Prog (Ask : Type) (Answer : Ask → Type) (α : Type)
  | ret (a : α)
  | ask (q : Ask) (next : Answer q → Prog Ask Answer α)

variable {Ask : Type} {Answer : Ask → Type} {α β τ σ ε : Type}

namespace Prog

def bind : Prog Ask Answer α → (α → Prog Ask Answer β) → Prog Ask Answer β
  | .ret a, f => f a
  | .ask q next, f => .ask q fun b => (next b).bind f

instance : Monad (Prog Ask Answer) where
  pure := .ret
  bind := bind

/-- The program that asks `q` and returns the answer. -/
def perform (q : Ask) : Prog Ask Answer (Answer q) := .ask q .ret

@[simp] theorem pure_eq (a : α) : (pure a : Prog Ask Answer α) = .ret a := rfl

@[simp] theorem bind_eq (p : Prog Ask Answer α) (f : α → Prog Ask Answer β) : p >>= f = p.bind f := rfl

@[simp] theorem ret_bind (a : α) (f : α → Prog Ask Answer β) : (Prog.ret a).bind f = f a := rfl

def result? : Prog Ask Answer α → Option α
  | .ret a => some a
  | .ask _ _ => none

theorem eq_ret_of_result? {p : Prog Ask Answer α} {a : α} (h : p.result? = some a) : p = .ret a := by
  cases p with
  | ret b => exact congrArg ret (Option.some.inj h)
  | ask q next => cases h

/-- The program asks nothing but what is permitted. -/
def Only (permitted : Ask → Prop) : Prog Ask Answer α → Prop
  | .ret _ => True
  | .ask q next => permitted q ∧ ∀ b, (next b).Only permitted

theorem Only.bind {permitted : Ask → Prop} {p : Prog Ask Answer α} {f : α → Prog Ask Answer β}
    (first : p.Only permitted) (later : ∀ a, (f a).Only permitted) : (p.bind f).Only permitted := by
  induction p with
  | ret a => exact later a
  | ask q next ih => exact ⟨first.1, fun b => ih b (first.2 b)⟩

/-- What the program's asks show on the way to its result. -/
inductive Heard (seen : (q : Ask) → Answer q → List ε) : Prog Ask Answer α → List ε → α → Prop
  | ret (a : α) : Heard seen (.ret a) [] a
  | ask {q : Ask} {next : Answer q → Prog Ask Answer α} {b : Answer q} {shown : List ε} {a : α}
      (later : Heard seen (next b) shown a) : Heard seen (.ask q next) (seen q b ++ shown) a

/-- What a sequence shows is what its parts show. -/
theorem Heard.of_bind {seen : (q : Ask) → Answer q → List ε} {p : Prog Ask Answer α}
    {f : α → Prog Ask Answer β} {shown : List ε} {b : β} (h : Heard seen (p.bind f) shown b) :
    ∃ first later a, shown = first ++ later ∧ Heard seen p first a ∧ Heard seen (f a) later b := by
  induction p generalizing shown with
  | ret a => exact ⟨[], shown, a, rfl, .ret a, h⟩
  | ask q next ih =>
      cases h with
      | @ask _ _ c rest _ h =>
          obtain ⟨first, later, a, rfl, here, behind⟩ := ih c h
          exact ⟨seen q c ++ first, later, a, (List.append_assoc _ _ _).symm, .ask here, behind⟩

end Prog

variable (answers : τ → (q : Ask) → σ → Answer q → σ → Prop)

/-- Any task takes its next step. -/
inductive Step [DecidableEq τ] : σ × (τ → Prog Ask Answer α) → σ × (τ → Prog Ask Answer α) → Prop
  | ask {s s' : σ} {tasks : τ → Prog Ask Answer α} {t : τ} {q : Ask}
      {next : Answer q → Prog Ask Answer α} {b : Answer q} (here : tasks t = .ask q next)
      (answered : answers t q s b s') : Step (s, tasks) (s', Function.update tasks t (next b))

/-- What each task relies on may happen any number of times. -/
structure Steady (rely : τ → σ → σ → Prop) : Prop where
  refl (t : τ) (s : σ) : rely t s s
  trans {t : τ} {s s' s'' : σ} (first : rely t s s') (later : rely t s' s'') : rely t s s''

/-- Whatever the others do in between that `rely` allows, the program's own steps are such as the
others rely on, and `Q` holds when it has returned. -/
def Sound (rely : τ → σ → σ → Prop) (t : τ) (Q : α → σ → Prop) : Prog Ask Answer α → σ → Prop
  | .ret a, s => ∀ s', rely t s s' → Q a s'
  | .ask q next, s => ∀ s', rely t s s' → ∀ b s'', answers t q s' b s'' →
      (∀ u, u ≠ t → rely u s' s'') ∧ Sound rely t Q (next b) s''

variable {answers} {rely : τ → σ → σ → Prop} {t : τ} {s s' : σ}

namespace Sound

theorem mono {Q R : α → σ → Prop} (weaker : ∀ a s, Q a s → R a s) {p : Prog Ask Answer α}
    (h : Sound answers rely t Q p s) : Sound answers rely t R p s := by
  induction p generalizing s with
  | ret a => exact fun s' moved => weaker a s' (h s' moved)
  | ask q next ih =>
      intro s' moved b s'' answered
      obtain ⟨others, later⟩ := h s' moved b s'' answered
      exact ⟨others, ih b later⟩

theorem moved (steady : Steady rely) {Q : α → σ → Prop}
    {p : Prog Ask Answer α} (h : Sound answers rely t Q p s) (move : rely t s s') :
    Sound answers rely t Q p s' := by
  cases p with
  | ret a => exact fun s'' later => h s'' (steady.trans move later)
  | ask q next => exact fun s'' later => h s'' (steady.trans move later)

theorem bind (steady : Steady rely) {Q : α → σ → Prop} {R : β → σ → Prop} {p : Prog Ask Answer α}
    {f : α → Prog Ask Answer β} (first : Sound answers rely t Q p s)
    (later : ∀ a s, Q a s → Sound answers rely t R (f a) s) : Sound answers rely t R (p.bind f) s := by
  induction p generalizing s with
  | ret a => exact later a s (first s (steady.refl t s))
  | ask q next ih =>
      intro s' moved b s'' answered
      obtain ⟨others, rest⟩ := first s' moved b s'' answered
      exact ⟨others, ih b rest⟩

/-- A program that asks only what keeps the invariant adds what it hears to its own history. -/
theorem heard (seen : (q : Ask) → Answer q → List ε) (own : σ → List ε) (I : σ → Prop)
    {permitted : Ask → Prop} (stable : ∀ {s s'}, rely t s s' → I s → I s' ∧ own s' = own s)
    (keeps : ∀ {q s b s'}, permitted q → I s → answers t q s b s' →
      (∀ u, u ≠ t → rely u s s') ∧ I s' ∧ own s' = own s ++ seen q b)
    {p : Prog Ask Answer α} (only : p.Only permitted) (inv : I s) :
    Sound answers rely t (fun a s' => I s' ∧ ∃ shown, p.Heard seen shown a ∧ own s' = own s ++ shown)
      p s := by
  induction p generalizing s with
  | ret a =>
      intro s' moved
      obtain ⟨inv', same⟩ := stable moved inv
      exact ⟨inv', [], .ret a, by rw [same, List.append_nil]⟩
  | ask q next ih =>
      intro s' moved b s'' answered
      obtain ⟨inv', same⟩ := stable moved inv
      obtain ⟨others, inv'', longer⟩ := keeps only.1 inv' answered
      refine ⟨others, (ih b (only.2 b) inv'').mono fun a last post => ?_⟩
      obtain ⟨kept, shown, later, history⟩ := post
      refine ⟨kept, seen q b ++ shown, .ask later, ?_⟩
      rw [history, longer, same, List.append_assoc]

end Sound

section Schedules

variable [DecidableEq τ] {Q : τ → α → σ → Prop} {w w' : σ × (τ → Prog Ask Answer α)}

/-- One step of one task leaves every task sound. -/
theorem sound_step (steady : Steady rely) (h : ∀ t, Sound answers rely t (Q t) (w.2 t) w.1)
    (step : Step answers w w') (t : τ) : Sound answers rely t (Q t) (w'.2 t) w'.1 := by
  cases step with
  | @ask s s' tasks u q next b here answered =>
      have own : Sound answers rely u (Q u) (tasks u) s := h u
      rw [here] at own
      obtain ⟨others, later⟩ := own s (steady.refl u s) b s' answered
      dsimp only
      by_cases same : t = u
      · rw [same, Function.update_self]
        exact later
      · rw [Function.update_of_ne same]
        exact (h t).moved steady (others t same)

/-- What the tasks are proved to return, each against the others, they return under every schedule. -/
theorem sound_run (steady : Steady rely) (h : ∀ t, Sound answers rely t (Q t) (w.2 t) w.1)
    (run : Relation.ReflTransGen (Step answers) w w') :
    ∀ t, Sound answers rely t (Q t) (w'.2 t) w'.1 := by
  induction run with
  | refl => exact h
  | tail run step ih => exact sound_step steady ih step

/-- What any of the others relies on holds from the start of a schedule to its end. -/
theorem kept_run (steady : Steady rely) (h : ∀ t, Sound answers rely t (Q t) (w.2 t) w.1)
    {P : σ → σ → Prop} (relied : ∀ t, ∃ u, u ≠ t ∧ ∀ s s', rely u s s' → P s s')
    (refl : ∀ s, P s s) (trans : ∀ {s s' s''}, P s s' → P s' s'' → P s s'')
    (run : Relation.ReflTransGen (Step answers) w w') : P w.1 w'.1 := by
  induction run with
  | refl => exact refl w.1
  | tail run step ih =>
      have sound := sound_run steady h run
      cases step with
      | @ask s s' tasks t q next b here answered =>
          obtain ⟨u, other, keeps⟩ := relied t
          have own : Sound answers rely t (Q t) (tasks t) s := sound t
          rw [here] at own
          exact trans ih (keeps s s' ((own s (steady.refl t s) b s' answered).1 u other))

theorem returned (steady : Steady rely) (h : ∀ t, Sound answers rely t (Q t) (w.2 t) w.1)
    (run : Relation.ReflTransGen (Step answers) w w') {t : τ} {a : α} (done : w'.2 t = .ret a) :
    Q t a w'.1 := by
  have sound := sound_run steady h run t
  rw [done] at sound
  exact sound w'.1 (steady.refl t w'.1)

end Schedules

end RisePir.Lib.Interleaving
