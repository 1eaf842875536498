import Mathlib.Data.List.Forall2
import Mathlib.Data.List.Induction

set_option autoImplicit false
set_option relaxedAutoImplicit false

/-! Loops that read each entry of a list, or fail, and write it into a state; and what such a run
leaves at one place, which is the last effect that an entry has there. -/

namespace RisePir.Lib.LastEffect

section Loops

variable {α β σ ε : Type}

theorem mapM_eq_some_iff {f : α → Option β} {l : List α} {bs : List β} :
    l.mapM f = some bs ↔ List.Forall₂ (fun a b => f a = some b) l bs := by
  induction l generalizing bs with
  | nil =>
      rw [List.mapM_nil, List.forall₂_nil_left_iff]
      exact ⟨fun h => by cases h; rfl, fun h => congrArg some h.symm⟩
  | cons a l ih =>
      rw [List.mapM_cons, List.forall₂_cons_left_iff]
      constructor
      · intro h
        obtain ⟨b, hb, h⟩ := Option.bind_eq_some_iff.mp h
        obtain ⟨bs', hbs, h⟩ := Option.bind_eq_some_iff.mp h
        cases h
        exact ⟨b, bs', hb, ih.mp hbs, rfl⟩
      · rintro ⟨b, bs', hb, hbs, rfl⟩
        exact Option.bind_eq_some_iff.mpr ⟨b, hb, Option.bind_eq_some_iff.mpr ⟨bs', ih.mpr hbs, rfl⟩⟩

/-- What was read was read from an entry. -/
theorem exists_of_mapM {f : α → Option β} {l : List α} {bs : List β} (h : l.mapM f = some bs) {b : β}
    (hb : b ∈ bs) : ∃ a ∈ l, f a = some b := by
  rw [mapM_eq_some_iff] at h
  induction h with
  | nil => cases hb
  | cons read _ ih =>
      rcases List.mem_cons.mp hb with rfl | hb
      · exact ⟨_, by simp, read⟩
      · obtain ⟨a, ha, read'⟩ := ih hb
        exact ⟨a, List.mem_cons_of_mem _ ha, read'⟩

/-- What reads one entry more reads one list more. -/
theorem mapM_mono {f g : α → Option β} (more : ∀ a b, f a = some b → g a = some b) {l : List α}
    {bs : List β} (h : l.mapM f = some bs) : l.mapM g = some bs :=
  mapM_eq_some_iff.mpr ((mapM_eq_some_iff.mp h).imp more)

/-- A loop that reads each entry and writes it is a reading of all, and then the writing. -/
theorem foldlM_eq_ok {step : σ → α → Except ε σ} {read : α → Option β} {write : σ → β → σ}
    {l : List α}
    (spec : ∀ a ∈ l, ∀ s t, step s a = .ok t ↔ ∃ b, read a = some b ∧ write s b = t) {s t : σ} :
    l.foldlM step s = .ok t ↔ ∃ bs, l.mapM read = some bs ∧ bs.foldl write s = t := by
  induction l generalizing s with
  | nil =>
      simp only [List.foldlM_nil, List.mapM_nil]
      exact ⟨fun h => ⟨[], rfl, Except.ok.inj h⟩, fun ⟨bs, hbs, h⟩ => by cases hbs; exact congrArg _ h⟩
  | cons a l ih =>
      have tail := fun s' => @ih (fun a ha => spec a (List.mem_cons_of_mem _ ha)) s'
      rw [List.foldlM_cons]
      constructor
      · intro h
        cases hs : step s a with
        | error e =>
            rw [hs] at h
            cases h
        | ok s' =>
            rw [hs] at h
            obtain ⟨b, hb, rfl⟩ := (spec a (by simp) s s').mp hs
            obtain ⟨bs, hbs, rfl⟩ := (tail _).mp h
            refine ⟨b :: bs, ?_, rfl⟩
            rw [mapM_eq_some_iff] at hbs ⊢
            exact .cons hb hbs
      · rintro ⟨bs, hbs, rfl⟩
        obtain ⟨b, bs, hb, rest, rfl⟩ := List.forall₂_cons_left_iff.mp (mapM_eq_some_iff.mp hbs)
        have hs := (spec a (by simp) s _).mpr ⟨b, hb, rfl⟩
        rw [hs]
        exact (tail _).mpr ⟨bs, mapM_eq_some_iff.mpr rest, rfl⟩

end Loops

section Effects

variable {α β : Type} {f g : α → Option β}

/-- The last effect that a member of the list has. -/
def lastEffect (f : α → Option β) (l : List α) : Option β := l.foldl (fun was a => (f a).or was) none

theorem lastEffect_concat (f : α → Option β) (l : List α) (a : α) :
    lastEffect f (l ++ [a]) = (f a).or (lastEffect f l) := by
  rw [lastEffect, List.foldl_append]
  rfl

/-- Where a list with one more member splits: at that member, or before it. -/
theorem concat_eq_split {l before after : List α} {a b : α} :
    l ++ [a] = before ++ b :: after ↔
      (l = before ∧ a = b ∧ after = []) ∨ ∃ init, after = init ++ [a] ∧ l = before ++ b :: init := by
  constructor
  · intro split
    rcases List.eq_nil_or_concat after with rfl | ⟨init, c, rfl⟩
    · obtain ⟨rfl, last⟩ := List.append_inj' split rfl
      exact .inl ⟨rfl, by simpa using last, rfl⟩
    · have whole : l ++ [a] = (before ++ b :: init) ++ [c] := by simpa using split
      obtain ⟨rfl, last⟩ := List.append_inj' whole rfl
      obtain rfl : a = c := by simpa using last
      exact .inr ⟨init, by simp, rfl⟩
  · rintro (⟨rfl, rfl, rfl⟩ | ⟨init, rfl, rfl⟩) <;> simp

/-- Two effects that differ only where one of them is `z`. Their last effects agree exactly when
every last difference falls where the other was at `z` too. -/
theorem lastEffect_eq_iff {differs : α → Prop} {z : β} {l : List α}
    (here : ∀ a ∈ l, differs a → g a = some z) (same : ∀ a ∈ l, ¬ differs a → g a = f a) :
    lastEffect g l = lastEffect f l ↔
      ∀ before a after, l = before ++ a :: after → differs a →
        (∀ b ∈ after, ¬ differs b ∧ f b = none) → lastEffect f (before ++ [a]) = some z := by
  induction l using List.reverseRec with
  | nil => simp [lastEffect]
  | append_singleton l a ih =>
      have tail := ih (fun b hb => here b (List.mem_append_left _ hb)) fun b hb =>
        same b (List.mem_append_left _ hb)
      rw [lastEffect_concat, lastEffect_concat]
      by_cases ha : differs a
      · rw [here a (by simp) ha, Option.some_or]
        constructor
        · intro agree before b after split _ quiet
          rcases concat_eq_split.mp split with ⟨rfl, rfl, rfl⟩ | ⟨init, rfl, rfl⟩
          · rw [lastEffect_concat, agree]
          · exact absurd ha (quiet a (by simp)).1
        · intro settled
          have final := settled l a [] rfl ha (by simp)
          rw [← final, lastEffect_concat]
      · rw [same a (by simp) ha]
        cases effect : f a with
        | some v =>
            refine ⟨fun _ before b after split hb quiet => ?_, fun _ => rfl⟩
            rcases concat_eq_split.mp split with ⟨rfl, rfl, rfl⟩ | ⟨init, rfl, rfl⟩
            · exact absurd hb ha
            · rw [(quiet a (by simp)).2] at effect
              cases effect
        | none =>
            rw [Option.none_or, Option.none_or, tail]
            constructor
            · intro settled before b after split hb quiet
              rcases concat_eq_split.mp split with ⟨rfl, rfl, rfl⟩ | ⟨init, rfl, rfl⟩
              · exact absurd hb ha
              · exact settled before b init rfl hb fun d hd => quiet d (by simp [hd])
            · intro settled before b after split hb quiet
              refine settled before b (after ++ [a]) (by simp [split]) hb fun d hd => ?_
              rcases List.mem_append.mp hd with hd | hd
              · exact quiet d hd
              · obtain rfl : d = a := by simpa using hd
                exact ⟨ha, effect⟩

end Effects

end RisePir.Lib.LastEffect
