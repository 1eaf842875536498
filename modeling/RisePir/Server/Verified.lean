import RisePir.Proto.Value
import RisePir.Upstream.Slots

set_option autoImplicit false
set_option relaxedAutoImplicit false

/-! The verified candidate-bucket scan: every write looks before it acts, because the
table's own key-addressed operations match on the fingerprint alone. -/

namespace RisePir.Server.Verified

open RisePir.Proto.Types
open RisePir.Proto.Value
open RisePir.Upstream.Cuckoo
open RisePir.Upstream.Slots

/-- Outcome of a verified candidate-bucket scan for one key. -/
inductive Located
  | own (balance : Balance)
  | absent (foreignFpMatches : Nat)
  | shadowed
  | duplicateTag
  | corrupt
  deriving DecidableEq, Repr

variable {p : CuckooParams} (C : SegmentedCuckoo p) (codec : ValueCodec)

/-- The slot's fingerprint is the key's. -/
def fpMatch (cells : List (BitVec 32)) (key : AddressHash) (s : Nat × Nat) : Bool :=
  (C.slotAt cells s).1 = C.fp key

/-- The slot's fingerprint and key tag are both the key's. -/
def tagMatch (cells : List (BitVec 32)) (key : AddressHash) (s : Nat × Nat) : Bool :=
  fpMatch C cells key s && codec.extractKeyTag (C.slotAt cells s).2 = codec.keyTag key

/-- The loop state of `locate`. -/
structure Scan where
  foreignFpMatches : Nat
  foreignSeenBeforeOurs : Bool
  ours : Option Lookup

def classify (scan : Scan) : Located :=
  match scan.ours with
  | none => .absent scan.foreignFpMatches
  | some lookup =>
      if scan.foreignSeenBeforeOurs then .shadowed
      else match lookup with
        | .found balance => .own balance
        | .notFound | .decodeFailed => .corrupt

/-- The loop of `locate` over the remaining candidate slots. -/
def locateFrom (cells : List (BitVec 32)) (key : AddressHash) :
    List (Nat × Nat) → Scan → Located
  | [], scan => classify scan
  | s :: slots, scan =>
      let slot := C.slotAt cells s
      if slot.1 ≠ C.fp key then locateFrom cells key slots scan
      else if codec.extractKeyTag slot.2 = codec.keyTag key then
        if scan.ours.isSome then .duplicateTag
        else locateFrom cells key slots
          { scan with
            foreignSeenBeforeOurs := scan.foreignSeenBeforeOurs || 0 < scan.foreignFpMatches
            ours := some (codec.decode key slot.2) }
      else locateFrom cells key slots { scan with foreignFpMatches := scan.foreignFpMatches + 1 }

/-- Scan every slot of the key's candidate buckets and classify its presence. -/
def locate (cells : List (BitVec 32)) (key : AddressHash) : Located :=
  locateFrom C codec cells key (C.probe key) ⟨0, false, none⟩

/-- Verified read: the balance stored for the key, absence, or an ambiguity. -/
def get (cells : List (BitVec 32)) (key : AddressHash) : Except Located (Option Balance) :=
  match locate C codec cells key with
  | .own balance => .ok (some balance)
  | .shadowed =>
      match (C.probe key).find? (tagMatch C codec cells key) with
      | some s =>
          match codec.decode key (C.slotAt cells s).2 with
          | .found balance => .ok (some balance)
          | _ => .error .corrupt
      | none => .error .corrupt
  | .absent _ => .ok none
  | err => .error err

/-- The candidate slots that carry the key's fingerprint and tag, in probe order. -/
def ownSlots (cells : List (BitVec 32)) (key : AddressHash) : List (Nat × Nat) :=
  (C.probe key).filter (tagMatch C codec cells key)

variable {C codec}

theorem tagMatch_iff {cells : List (BitVec 32)} {key : AddressHash} {s : Nat × Nat} :
    tagMatch C codec cells key s = true ↔
      (C.slotAt cells s).1 = C.fp key ∧
        codec.extractKeyTag (C.slotAt cells s).2 = codec.keyTag key := by
  simp [tagMatch, fpMatch]

private theorem locateFrom_skip {cells : List (BitVec 32)} {key : AddressHash}
    {slots : List (Nat × Nat)} (h : ∀ s ∈ slots, tagMatch C codec cells key s = false)
    (scan : Scan) (rest : List (Nat × Nat)) :
    locateFrom C codec cells key (slots ++ rest) scan =
      locateFrom C codec cells key rest { scan with
        foreignFpMatches := scan.foreignFpMatches + slots.countP (fpMatch C cells key) } := by
  induction slots generalizing scan with
  | nil => rfl
  | cons s slots ih =>
      have hs := h s (by simp)
      have ih := fun scan => ih (fun s' hs' => h s' (List.mem_cons_of_mem s hs')) scan
      simp only [List.cons_append, locateFrom]
      by_cases hfp : (C.slotAt cells s).1 = C.fp key
      · have htag : ¬ codec.extractKeyTag (C.slotAt cells s).2 = codec.keyTag key := by
          intro htag
          rw [tagMatch_iff.mpr ⟨hfp, htag⟩] at hs
          cases hs
        have hmatch : fpMatch C cells key s = true := by simpa [fpMatch] using hfp
        rw [if_neg (by simp [hfp]), if_neg htag, ih, List.countP_cons_of_pos hmatch]
        congr 2
        exact Nat.add_right_comm _ _ _
      · have hmatch : ¬ fpMatch C cells key s = true := by simpa [fpMatch] using hfp
        rw [if_pos hfp, ih, List.countP_cons_of_neg hmatch]

private theorem locateFrom_ours {cells : List (BitVec 32)} {key : AddressHash} {s : Nat × Nat}
    (h : tagMatch C codec cells key s = true) (slots : List (Nat × Nat)) (scan : Scan) :
    locateFrom C codec cells key (s :: slots) scan =
      if scan.ours.isSome then .duplicateTag
      else locateFrom C codec cells key slots
        { scan with
          foreignSeenBeforeOurs := scan.foreignSeenBeforeOurs || 0 < scan.foreignFpMatches
          ours := some (codec.decode key (C.slotAt cells s).2) } := by
  obtain ⟨hfp, htag⟩ := tagMatch_iff.mp h
  simp only [locateFrom]
  rw [if_neg (by simp [hfp]), if_pos htag]

private theorem filter_split {cells : List (BitVec 32)} {key : AddressHash} {s : Nat × Nat}
    {rest : List (Nat × Nat)} (slots : List (Nat × Nat))
    (h : slots.filter (tagMatch C codec cells key) = s :: rest) :
    ∃ before after, slots = before ++ s :: after ∧
      (∀ t ∈ before, tagMatch C codec cells key t = false) ∧
      tagMatch C codec cells key s = true ∧
      after.filter (tagMatch C codec cells key) = rest := by
  obtain ⟨before, after, hslots, hbefore, hs, hafter⟩ := List.filter_eq_cons_iff.mp h
  exact ⟨before, after, hslots, fun t ht => by simpa using hbefore t ht, hs, hafter⟩

theorem locate_absent {cells : List (BitVec 32)} {key : AddressHash}
    (h : ownSlots C codec cells key = []) :
    locate C codec cells key = .absent ((C.probe key).countP (fpMatch C cells key)) := by
  have none_match : ∀ s ∈ C.probe key, tagMatch C codec cells key s = false := by
    intro s hs
    simpa using List.filter_eq_nil_iff.mp h s hs
  have skip := locateFrom_skip none_match ⟨0, false, none⟩ []
  rw [List.append_nil] at skip
  rw [locate, skip]
  simp [locateFrom, classify]

theorem locate_duplicate {cells : List (BitVec 32)} {key : AddressHash} {s s' : Nat × Nat}
    {rest : List (Nat × Nat)} (h : ownSlots C codec cells key = s :: s' :: rest) :
    locate C codec cells key = .duplicateTag := by
  obtain ⟨before, after, hprobe, hbefore, hs, hafter⟩ := filter_split _ h
  obtain ⟨between, after', hafter', hbetween, hs', -⟩ := filter_split _ hafter
  rw [locate, hprobe, locateFrom_skip hbefore, locateFrom_ours hs, if_neg (by simp), hafter',
    locateFrom_skip hbetween, locateFrom_ours hs']
  rfl

/-- The own entry is the first fingerprint match exactly when no foreign match precedes it. -/
private theorem firstMatch_iff {cells : List (BitVec 32)} {key : AddressHash} {s : Nat × Nat}
    {before after : List (Nat × Nat)} (laws : C.PlacementLaws)
    (hprobe : C.probe key = before ++ s :: after) (hs : tagMatch C codec cells key s = true) :
    C.firstMatch cells key = some s ↔ before.countP (fpMatch C cells key) = 0 := by
  have hfp : (C.slotAt cells s).1 = C.fp key := (tagMatch_iff.mp hs).1
  have fpMatch_false : before.countP (fpMatch C cells key) = 0 ↔
      ∀ t ∈ before, ¬ (C.slotAt cells t).1 = C.fp key := by
    rw [List.countP_eq_zero]
    simp [fpMatch]
  rw [fpMatch_false, SegmentedCuckoo.firstMatch, hprobe]
  constructor
  · intro hfind t ht htfp
    have notin : s ∉ before := by
      have nodup := probe_nodup laws key
      rw [hprobe, List.nodup_append] at nodup
      intro hmem
      exact nodup.2.2 s hmem s (by simp) rfl
    have found : (before.find? fun s => decide ((C.slotAt cells s).1 = C.fp key)).isSome := by
      rw [List.find?_isSome]
      exact ⟨t, ht, by simpa using htfp⟩
    obtain ⟨t', ht'⟩ := Option.isSome_iff_exists.mp found
    rw [List.find?_append, ht', Option.some_or] at hfind
    exact notin (Option.some.inj hfind ▸ List.mem_of_find?_eq_some ht')
  · intro hnone
    have before_none : (before.find? fun s => decide ((C.slotAt cells s).1 = C.fp key)) = none := by
      rw [List.find?_eq_none]
      intro t ht
      simpa using hnone t ht
    rw [List.find?_append, before_none, Option.none_or, List.find?_cons_of_pos (by simpa using hfp)]

theorem locate_unique {cells : List (BitVec 32)} {key : AddressHash} {s : Nat × Nat}
    (laws : C.PlacementLaws) (h : ownSlots C codec cells key = [s]) :
    locate C codec cells key =
      if C.firstMatch cells key = some s then
        match codec.decode key (C.slotAt cells s).2 with
        | .found balance => .own balance
        | .notFound | .decodeFailed => .corrupt
      else .shadowed := by
  obtain ⟨before, after, hprobe, hbefore, hs, hafter⟩ := filter_split _ h
  have after_none : ∀ t ∈ after, tagMatch C codec cells key t = false := by
    intro t ht
    simpa using List.filter_eq_nil_iff.mp hafter t ht
  have skip := fun scan => locateFrom_skip after_none scan []
  simp only [List.append_nil] at skip
  have first := firstMatch_iff laws hprobe hs
  rw [locate, hprobe, locateFrom_skip hbefore, locateFrom_ours hs, if_neg (by simp), skip]
  simp only [locateFrom, classify, Bool.false_or, Nat.zero_add, decide_eq_true_eq]
  by_cases hcount : before.countP (fpMatch C cells key) = 0
  · rw [if_neg (by omega), if_pos (first.mpr hcount)]
  · rw [if_pos (by omega), if_neg fun hfirst => hcount (first.mp hfirst)]

theorem get_absent {cells : List (BitVec 32)} {key : AddressHash}
    (h : ownSlots C codec cells key = []) : get C codec cells key = .ok none := by
  rw [get, locate_absent h]

theorem get_duplicate {cells : List (BitVec 32)} {key : AddressHash} {s s' : Nat × Nat}
    {rest : List (Nat × Nat)} (h : ownSlots C codec cells key = s :: s' :: rest) :
    get C codec cells key = .error .duplicateTag := by
  rw [get, locate_duplicate h]

/-- A unique tagged slot is read wherever it stands in probe order. -/
theorem get_unique {cells : List (BitVec 32)} {key : AddressHash} {s : Nat × Nat}
    (laws : C.PlacementLaws) (h : ownSlots C codec cells key = [s]) :
    get C codec cells key =
      match codec.decode key (C.slotAt cells s).2 with
      | .found balance => .ok (some balance)
      | .notFound | .decodeFailed => .error .corrupt := by
  have found : (C.probe key).find? (tagMatch C codec cells key) = some s := by
    rw [← List.head?_filter]
    exact congrArg List.head? h
  rw [get, locate_unique laws h]
  by_cases hfirst : C.firstMatch cells key = some s
  · rw [if_pos hfirst]
    cases codec.decode key (C.slotAt cells s).2 <;> rfl
  · rw [if_neg hfirst]
    simp only [found]
    cases codec.decode key (C.slotAt cells s).2 <;> rfl

/-- `Own` is sound: the own slot is the only tagged slot and the first fingerprint match. -/
theorem locate_own {cells : List (BitVec 32)} {key : AddressHash} {balance : Balance}
    (laws : C.PlacementLaws) (h : locate C codec cells key = .own balance) :
    ∃ s, ownSlots C codec cells key = [s] ∧ C.firstMatch cells key = some s ∧
      codec.decode key (C.slotAt cells s).2 = .found balance := by
  match hown : ownSlots C codec cells key with
  | [] =>
      rw [locate_absent hown] at h
      cases h
  | [s] =>
      rw [locate_unique laws hown] at h
      by_cases hfirst : C.firstMatch cells key = some s
      · rw [if_pos hfirst] at h
        refine ⟨s, rfl, hfirst, ?_⟩
        cases hdec : codec.decode key (C.slotAt cells s).2 with
        | found b =>
            rw [hdec] at h
            rw [Located.own.inj h]
        | notFound =>
            rw [hdec] at h
            cases h
        | decodeFailed =>
            rw [hdec] at h
            cases h
      · rw [if_neg hfirst] at h
        cases h
  | s :: s' :: rest =>
      rw [locate_duplicate hown] at h
      cases h

theorem locate_absent_iff {cells : List (BitVec 32)} {key : AddressHash} {n : Nat}
    (laws : C.PlacementLaws) (h : locate C codec cells key = .absent n) :
    ownSlots C codec cells key = [] := by
  match hown : ownSlots C codec cells key with
  | [] => rfl
  | [s] =>
      rw [locate_unique laws hown] at h
      split at h
      · split at h <;> cases h
      · cases h
  | s :: s' :: rest =>
      rw [locate_duplicate hown] at h
      cases h

theorem mem_ownSlots {cells : List (BitVec 32)} {key : AddressHash} {s : Nat × Nat} :
    s ∈ ownSlots C codec cells key ↔ s ∈ C.probe key ∧ tagMatch C codec cells key s = true :=
  List.mem_filter

end RisePir.Server.Verified
