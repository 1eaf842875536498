import RisePir.Feed.Endpoints

set_option autoImplicit false
set_option relaxedAutoImplicit false

/-! Calls of one feed at the same time. Whatever the schedule and whatever the endpoints answer, an
endpoint is asked for data only after it has reported the deployment's chain, and a call returns what
the first endpoint in order served it whole. -/

namespace RisePir.Feed.Failover

open RisePir.Lib.Interleaving
open RisePir.Proto.Types
open RisePir.Feed.Rpc (Address FetchedBlock)
open RisePir.Feed.Trace (Value)
open RisePir.Feed.Endpoints

/-- A POST with what it came to; what `new_multi` posts has no call. -/
structure Exchange where
  caller : Option Nat
  endpoint : Nat
  request : Request
  outcome : HttpOutcome

/-- What the calls share: what is known of the endpoints, and every POST so far. -/
structure World where
  verified : Nat → Bool
  exchanges : List Exchange

namespace World

/-- Before `new_multi`. -/
def fresh : World := ⟨fun _ => false, []⟩

/-- The feed that `new_multi` has returned. -/
def opened (w : World) (verified : List Bool) : World := ⟨fun i => verified.getD i false, w.exchanges⟩

/-- The exchanges of one caller. -/
def own (w : World) (caller : Option Nat) : List Exchange :=
  w.exchanges.filter fun x => x.caller = caller

end World

/-- How a caller's asks are answered. An endpoint may answer anything. -/
inductive Answers (caller : Option Nat) : (q : Ask) → World → Answer q → World → Prop
  | post (w : World) (i : Nat) (request : Request) (outcome : HttpOutcome) :
      Answers caller (.post i request) w outcome
        ⟨w.verified, w.exchanges ++ [⟨caller, i, request, outcome⟩]⟩
  | load (w : World) (i : Nat) : Answers caller (.load i) w (w.verified i) w
  | store (w : World) (i : Nat) :
      Answers caller (.store i) w () ⟨Function.update w.verified i true, w.exchanges⟩

/-- What an ask shows of the endpoints. -/
def seen (caller : Option Nat) : (q : Ask) → Answer q → List Exchange
  | .post i request, outcome => [⟨caller, i, request, outcome⟩]
  | .load _, _ => []
  | .store _, _ => []

variable (libs : Libraries) (keccak256 : Address → AddressHash) (chainId : Nat)

/-- The endpoint reported the deployment's chain. -/
def Reports (x : Exchange) : Prop :=
  x.request = chainIdRequest ∧
    readChainId libs chainId (readReply libs chainIdRequest.method x.outcome) = .ok ()

def Reported (i : Nat) (exchanges : List Exchange) : Prop :=
  ∃ x ∈ exchanges, x.endpoint = i ∧ Reports libs chainId x

/-- Only an endpoint that has reported the chain is taken as verified, and only such a one is asked for
anything else. -/
structure Guarded (w : World) : Prop where
  verified : ∀ i, w.verified i = true → Reported libs chainId i w.exchanges
  first : ∀ before x after, w.exchanges = before ++ x :: after → x.request ≠ chainIdRequest →
    Reported libs chainId x.endpoint before

/-- What a call relies on while others take their steps. -/
def rely (t : Nat) (w w' : World) : Prop :=
  (Guarded libs chainId w → Guarded libs chainId w') ∧ w.exchanges <+: w'.exchanges ∧
    w'.own (some t) = w.own (some t)

/-- One endpoint's part of a call: what was exchanged, and what came of it. -/
inductive Attempt {α : Type} (caller : Option Nat) (on : Nat → Call (Except FeedError α)) :
    Nat × String → List Exchange → Except String α → Prop
  | unverified {i : Nat} {url : String} {xs : List Exchange} {e : FeedError}
      (checked : (verifyChain libs i chainId).Heard (seen caller) xs (.error e)) :
      Attempt caller on (i, url) xs (.error s!"{url}: unverified ({e})")
  | refused {i : Nat} {url : String} {xs ys : List Exchange} {e : FeedError}
      (checked : xs = [] ∨ (verifyChain libs i chainId).Heard (seen caller) xs (.ok ()))
      (asked : (on i).Heard (seen caller) ys (.error e)) :
      Attempt caller on (i, url) (xs ++ ys) (.error s!"{url}: {e}")
  | served {i : Nat} {url : String} {xs ys : List Exchange} {a : α}
      (checked : xs = [] ∨ (verifyChain libs i chainId).Heard (seen caller) xs (.ok ()))
      (asked : (on i).Heard (seen caller) ys (.ok a)) : Attempt caller on (i, url) (xs ++ ys) (.ok a)

/-- The endpoints in order, each declining what the next one is then asked, up to the one that serves
or to the end of the list. -/
inductive Tried {α : Type} (caller : Option Nat) (method : String)
    (on : Nat → Call (Except FeedError α)) :
    List (Nat × String) → List String → List Exchange → Except FeedError α → Prop
  | exhausted (failures : List String) :
      Tried caller method on [] failures [] (.error (allFailed method failures))
  | served {endpoint : Nat × String} {rest : List (Nat × String)} {failures : List String}
      {xs : List Exchange} {a : α} (here : Attempt libs chainId caller on endpoint xs (.ok a)) :
      Tried caller method on (endpoint :: rest) failures xs (.ok a)
  | declined {endpoint : Nat × String} {rest : List (Nat × String)} {failures : List String}
      {xs ys : List Exchange} {why : String} {r : Except FeedError α}
      (here : Attempt libs chainId caller on endpoint xs (.error why))
      (later : Tried caller method on rest (failures ++ [why]) ys r) :
      Tried caller method on (endpoint :: rest) failures (xs ++ ys) r

section Steps

variable {libs : Libraries} {chainId : Nat} {t : Nat} {w w' : World} {i : Nat}

theorem Reported.mono {xs ys : List Exchange} (h : Reported libs chainId i xs) (sub : xs ⊆ ys) :
    Reported libs chainId i ys := by
  obtain ⟨x, mem, here, reports⟩ := h
  exact ⟨x, sub mem, here, reports⟩

theorem rely_steady : Steady (rely libs chainId) where
  refl _ _ := ⟨id, List.prefix_refl _, rfl⟩
  trans first later :=
    ⟨later.1 ∘ first.1, first.2.1.trans later.2.1, later.2.2.trans first.2.2⟩

/-- One more exchange of an endpoint that may be asked. -/
theorem Guarded.exchanged (h : Guarded libs chainId w) {x : Exchange}
    (allowed : x.request = chainIdRequest ∨ Reported libs chainId x.endpoint w.exchanges) :
    Guarded libs chainId ⟨w.verified, w.exchanges ++ [x]⟩ := by
  constructor
  · intro i known
    exact (h.verified i known).mono (List.subset_append_left _ _)
  · intro before y after split data
    rcases List.eq_nil_or_concat after with rfl | ⟨after, last, rfl⟩
    · obtain ⟨rfl, same⟩ := List.append_inj' split rfl
      obtain rfl := List.head_eq_of_cons_eq same
      exact allowed.resolve_left data
    · rw [List.concat_eq_append, ← List.cons_append, ← List.append_assoc] at split
      exact h.first before y after (List.append_inj' split rfl).1 data

theorem own_exchanged {x : Exchange} {caller : Option Nat} :
    World.own ⟨w.verified, w.exchanges ++ [x]⟩ caller =
      w.own caller ++ if x.caller = caller then [x] else [] := by
  rw [World.own, List.filter_append]
  congr 1
  by_cases mine : x.caller = caller <;> simp [mine]

/-- A permitted POST keeps the order of things, and what every other call relies on. -/
theorem posted {request : Request} {outcome : HttpOutcome}
    (allowed : request = chainIdRequest ∨ Reported libs chainId i w.exchanges)
    (h : Guarded libs chainId w) (answered : Answers (some t) (.post i request) w outcome w') :
    (∀ u, u ≠ t → rely libs chainId u w w') ∧ Guarded libs chainId w' ∧
      w'.own (some t) = w.own (some t) ++ seen (some t) (.post i request) outcome ∧
      w.exchanges <+: w'.exchanges := by
  cases answered
  have guarded := h.exchanged (x := ⟨some t, i, request, outcome⟩) allowed
  refine ⟨fun u other => ⟨fun _ => guarded, List.prefix_append _ _, ?_⟩, guarded, ?_,
    List.prefix_append _ _⟩
  · rw [own_exchanged, if_neg (fun same => other (Option.some.inj same).symm), List.append_nil]
  · rw [own_exchanged, if_pos rfl]
    rfl

end Steps

section Calls

variable {libs : Libraries} {keccak256 : Address → AddressHash} {chainId : Nat} {t i n : Nat}
  {w : World} {α : Type}

theorem verifyChain_only :
    (verifyChain libs i chainId).Only fun q => q = .post i chainIdRequest :=
  ⟨rfl, fun _ => trivial⟩

theorem call_only {request : Request} :
    (call libs i request).Only fun q => ∃ request, q = .post i request :=
  ⟨⟨_, rfl⟩, fun _ => trivial⟩

theorem finalizedOn_only : (finalizedOn libs i).Only fun q => ∃ request, q = .post i request :=
  call_only.bind fun _ => trivial

theorem blockUpdateOn_only :
    (blockUpdateOn libs keccak256 n i).Only fun q => ∃ request, q = .post i request := by
  refine call_only.bind fun block => ?_
  cases readCredits libs n block with
  | error e => trivial
  | ok credited => exact call_only.bind fun _ => trivial

theorem call_heard {caller : Option Nat} {request : Request} {xs : List Exchange}
    {r : Except FeedError Trace.Value} (heard : (call libs i request).Heard (seen caller) xs r) :
    ∃ outcome, xs = [⟨caller, i, request, outcome⟩] ∧ r = readReply libs request.method outcome := by
  cases heard with
  | @ask _ _ outcome shown _ later =>
      cases later
      exact ⟨outcome, rfl, rfl⟩

theorem verifyChain_heard {caller : Option Nat} {xs : List Exchange} {r : Except FeedError Unit}
    (heard : (verifyChain libs i chainId).Heard (seen caller) xs r) :
    ∃ outcome, xs = [⟨caller, i, chainIdRequest, outcome⟩] ∧
      r = readChainId libs chainId (readReply libs chainIdRequest.method outcome) := by
  obtain ⟨ys, zs, reply, rfl, replied, read⟩ := Prog.Heard.of_bind heard
  obtain ⟨outcome, rfl, rfl⟩ := call_heard replied
  cases read
  exact ⟨outcome, rfl, rfl⟩

/-- A call to one endpoint adds its own exchanges. -/
theorem endpoint_sound {on : Call (Except FeedError α)}
    (only : on.Only fun q => ∃ request, q = .post i request) (guarded : Guarded libs chainId w)
    (known : Reported libs chainId i w.exchanges) :
    Sound (fun t => Answers (some t)) (rely libs chainId) t (fun r w' => Guarded libs chainId w' ∧
      ∃ xs, on.Heard (seen (some t)) xs r ∧ w'.own (some t) = w.own (some t) ++ xs) on w := by
  refine (Sound.heard (seen (some t)) (fun w => w.own (some t))
    (fun w => Guarded libs chainId w ∧ Reported libs chainId i w.exchanges) ?_ ?_ only ⟨guarded, known⟩).mono fun r w' post =>
      ⟨post.1.1, post.2⟩
  · rintro w w' ⟨keeps, longer, same⟩ ⟨guarded, known⟩
    exact ⟨⟨keeps guarded, known.mono longer.subset⟩, same⟩
  · rintro q w b w' ⟨request, rfl⟩ ⟨guarded, known⟩ answered
    obtain ⟨others, guarded', longer, further⟩ := posted (.inr known) guarded answered
    exact ⟨others, ⟨guarded', known.mono further.subset⟩, longer⟩

theorem verifyChain_sound (guarded : Guarded libs chainId w) :
    Sound (fun t => Answers (some t)) (rely libs chainId) t (fun r w' => Guarded libs chainId w' ∧
      ∃ xs, (verifyChain libs i chainId).Heard (seen (some t)) xs r ∧
        w'.own (some t) = w.own (some t) ++ xs) (verifyChain libs i chainId) w := by
  refine Sound.heard (seen (some t)) (fun w => w.own (some t)) _ ?_ ?_ verifyChain_only guarded
  · rintro w w' ⟨keeps, -, same⟩ guarded
    exact ⟨keeps guarded, same⟩
  · rintro q w b w' rfl guarded answered
    obtain ⟨others, guarded', longer, -⟩ := posted (.inl rfl) guarded answered
    exact ⟨others, guarded', longer⟩

theorem loadVerified_sound (guarded : Guarded libs chainId w) :
    Sound (fun t => Answers (some t)) (rely libs chainId) t (fun verified w' =>
      Guarded libs chainId w' ∧ w'.own (some t) = w.own (some t) ∧
        (verified = true → Reported libs chainId i w'.exchanges)) (loadVerified i) w := by
  intro w₁ moved verified w₂ answered
  cases answered
  refine ⟨fun u _ => rely_steady.refl u _, fun w' later => ?_⟩
  have guarded₁ := moved.1 guarded
  refine ⟨later.1 guarded₁, later.2.2.trans moved.2.2, fun known => ?_⟩
  exact (guarded₁.verified i known).mono later.2.1.subset

theorem storeVerified_sound (guarded : Guarded libs chainId w)
    (reported : Reported libs chainId i w.exchanges) :
    Sound (fun t => Answers (some t)) (rely libs chainId) t (fun _ w' =>
      Guarded libs chainId w' ∧ w'.own (some t) = w.own (some t) ∧
        Reported libs chainId i w'.exchanges) (storeVerified i) w := by
  intro w₁ moved done w₂ answered
  cases answered
  have guarded₁ := moved.1 guarded
  have reported₁ := reported.mono moved.2.1.subset
  have guarded₂ : Guarded libs chainId ⟨Function.update w₁.verified i true, w₁.exchanges⟩ := by
    refine ⟨fun j known => ?_, guarded₁.first⟩
    by_cases here : j = i
    · exact here ▸ reported₁
    · exact guarded₁.verified j ((Function.update_of_ne here true w₁.verified).symm.trans known)
  refine ⟨fun u _ => ⟨fun _ => guarded₂, List.prefix_refl _, rfl⟩, fun w' later => ?_⟩
  exact ⟨later.1 guarded₂, later.2.2.trans moved.2.2, reported₁.mono later.2.1.subset⟩

theorem reported_of_own {xs : List Exchange} {caller : Option Nat}
    (heard : (verifyChain libs i chainId).Heard (seen caller) xs (.ok ()))
    (mine : xs ⊆ w.own caller) : Reported libs chainId i w.exchanges := by
  obtain ⟨outcome, rfl, reads⟩ := verifyChain_heard heard
  exact ⟨_, List.mem_of_mem_filter (mine (List.mem_singleton_self _)), rfl, rfl, reads.symm⟩

/-- Before an endpoint is used it has reported the chain: to this call, or to one before. -/
theorem ensureChainVerified_sound (guarded : Guarded libs chainId w) :
    Sound (fun t => Answers (some t)) (rely libs chainId) t (fun r w' => Guarded libs chainId w' ∧
      ∃ xs, w'.own (some t) = w.own (some t) ++ xs ∧ match r with
        | .ok () => Reported libs chainId i w'.exchanges ∧
            (xs = [] ∨ (verifyChain libs i chainId).Heard (seen (some t)) xs (.ok ()))
        | .error e => (verifyChain libs i chainId).Heard (seen (some t)) xs (.error e))
      (ensureChainVerified libs i chainId) w := by
  refine Sound.bind rely_steady (loadVerified_sound guarded) fun verified w₁ loaded => ?_
  obtain ⟨guarded₁, same, known⟩ := loaded
  cases verified with
  | true =>
      intro w' later
      refine ⟨later.1 guarded₁, [], ?_, (known rfl).mono later.2.1.subset, .inl rfl⟩
      rw [later.2.2, same, List.append_nil]
  | false =>
      refine Sound.bind rely_steady (verifyChain_sound guarded₁) fun r w₂ checked => ?_
      obtain ⟨guarded₂, xs, heard, longer⟩ := checked
      cases r with
      | error e =>
          intro w' later
          exact ⟨later.1 guarded₂, xs, by rw [later.2.2, longer, same], heard⟩
      | ok _ =>
          have reported : Reported libs chainId i w₂.exchanges :=
            reported_of_own heard (longer ▸ List.subset_append_right _ _)
          refine Sound.bind rely_steady (storeVerified_sound guarded₂ reported) fun _ w₃ stored => ?_
          obtain ⟨guarded₃, same₃, reported₃⟩ := stored
          intro w' later
          refine ⟨later.1 guarded₃, xs, ?_, reported₃.mono later.2.1.subset, .inr heard⟩
          rw [later.2.2, same₃, longer, same]

/-- The loop over the endpoints that are left. -/
theorem inOrder_sound {method : String} {on : Nat → Call (Except FeedError α)}
    (only : ∀ i, (on i).Only fun q => ∃ request, q = .post i request) {rest : List (Nat × String)}
    {failures : List String} (guarded : Guarded libs chainId w) :
    Sound (fun t => Answers (some t)) (rely libs chainId) t (fun r w' => Guarded libs chainId w' ∧
      ∃ xs, w'.own (some t) = w.own (some t) ++ xs ∧
        Tried libs chainId (some t) method on rest failures xs r)
      (inOrder libs chainId method on rest failures) w := by
  induction rest generalizing failures w with
  | nil =>
      intro w' moved
      exact ⟨moved.1 guarded, [], by rw [moved.2.2, List.append_nil], .exhausted failures⟩
  | cons endpoint rest ih =>
      obtain ⟨i, url⟩ := endpoint
      refine Sound.bind rely_steady (ensureChainVerified_sound guarded) fun r w₁ checked => ?_
      obtain ⟨guarded₁, xs, longer, known⟩ := checked
      cases r with
      | error e =>
          refine (ih guarded₁).mono fun r w' post => ?_
          obtain ⟨guarded', ys, later, tried⟩ := post
          refine ⟨guarded', xs ++ ys, ?_, .declined (.unverified known) tried⟩
          rw [later, longer, List.append_assoc]
      | ok checked =>
          obtain ⟨reported, verified⟩ := known
          refine Sound.bind rely_steady (endpoint_sound (only i) guarded₁ reported) fun r w₂ asked => ?_
          obtain ⟨guarded₂, ys, heard, longer₂⟩ := asked
          cases r with
          | ok a =>
              intro w' moved
              refine ⟨moved.1 guarded₂, xs ++ ys, ?_, .served (.served verified heard)⟩
              rw [moved.2.2, longer₂, longer, List.append_assoc]
          | error e =>
              refine (ih guarded₂).mono fun r w' post => ?_
              obtain ⟨guarded', zs, later, tried⟩ := post
              refine ⟨guarded', xs ++ ys ++ zs, ?_, .declined (.refused verified heard) tried⟩
              rw [later, longer₂, longer, List.append_assoc, List.append_assoc, List.append_assoc]

end Calls

section Opening

variable {libs : Libraries} {chainId i count : Nat} {w : World}

/-- `new_multi` has asked nothing but the endpoints' chain. -/
def Opening (w : World) : Prop := ∀ x ∈ w.exchanges, x.request = chainIdRequest ∧ x.caller = none

theorem opening_steady : Steady fun (_ : Unit) (w w' : World) => w' = w :=
  ⟨fun _ _ => rfl, fun first later => later.trans first⟩

theorem verifyChain_opening (opening : Opening w) :
    Sound (fun _ : Unit => Answers none) (fun _ w w' => w' = w) () (fun r w' => Opening w' ∧
      w.exchanges <+: w'.exchanges ∧ (r = .ok () → Reported libs chainId i w'.exchanges))
      (verifyChain libs i chainId) w := by
  refine (Sound.heard (seen none) World.exchanges Opening ?_ ?_ verifyChain_only
    opening).mono fun r w' post => ?_
  · rintro w w' rfl opening
    exact ⟨opening, rfl⟩
  · rintro q w b w' rfl opening answered
    cases answered
    refine ⟨fun u other => absurd rfl other, fun x mem => ?_, rfl⟩
    rcases List.mem_append.mp mem with old | new
    · exact opening x old
    · obtain rfl := List.mem_singleton.mp new
      exact ⟨rfl, rfl⟩
  · obtain ⟨opening', xs, heard, longer⟩ := post
    refine ⟨opening', longer ▸ List.prefix_append _ _, ?_⟩
    rintro rfl
    obtain ⟨outcome, rfl, reads⟩ := verifyChain_heard heard
    exact ⟨_, longer ▸ List.mem_append_right _ (List.mem_singleton_self _), rfl, rfl, reads.symm⟩

/-- What `new_multi` takes as verified has reported the chain; the primary always has. -/
structure Known (libs : Libraries) (chainId : Nat) (verified : List Bool) (w : World) : Prop where
  opening : Opening w
  reported : ∀ i, verified.getD i false = true → Reported libs chainId i w.exchanges
  primary : verified = [] ∨ verified.head? = some true

theorem Known.push {verified : List Bool} {known : Bool} {w' : World}
    (h : Known libs chainId verified w) (opening : Opening w') (longer : w.exchanges <+: w'.exchanges)
    (now : known = true → Reported libs chainId verified.length w'.exchanges)
    (primary : verified = [] → known = true) : Known libs chainId (verified ++ [known]) w' := by
  refine ⟨opening, fun i flag => ?_, .inr ?_⟩
  · rcases Nat.lt_trichotomy i verified.length with before | rfl | beyond
    · rw [List.getD_append _ _ _ _ before] at flag
      exact (h.reported i flag).mono longer.subset
    · rw [List.getD_append_right _ _ _ _ le_rfl, Nat.sub_self] at flag
      exact now flag
    · rw [List.getD_eq_default _ _ (by rw [List.length_append]; exact beyond)] at flag
      cases flag
  · rcases h.primary with rfl | first
    · rw [primary rfl]
      rfl
    · rw [List.head?_append, first]
      rfl

theorem openEach_sound {verified : List Bool} (h : Known libs chainId verified w) :
    Sound (fun _ : Unit => Answers none) (fun _ w w' => w' = w) () (fun r w' =>
      ∀ flags, r = .ok flags → Known libs chainId flags w' ∧ flags.length = verified.length + count)
      (openEach libs chainId (List.range' verified.length count) verified) w := by
  induction count generalizing verified w with
  | zero =>
      rintro w' rfl flags same
      obtain rfl := Except.ok.inj same
      exact ⟨h, rfl⟩
  | succ count ih =>
      refine Sound.bind opening_steady (verifyChain_opening h.opening) fun r w₁ post => ?_
      obtain ⟨opening, longer, reported⟩ := post
      have further : ∀ known, (known = true → Reported libs chainId verified.length w₁.exchanges) →
          (verified = [] → known = true) →
          Sound (fun _ : Unit => Answers none) (fun _ w w' => w' = w) () (fun r w' =>
            ∀ flags, r = .ok flags → Known libs chainId flags w' ∧
              flags.length = verified.length + (count + 1))
            (openEach libs chainId (List.range' (verified.length + 1) count) (verified ++ [known])) w₁ := by
        intro known now primary
        have rest := ih (h.push opening longer now primary)
        rw [List.length_append, List.length_singleton] at rest
        refine rest.mono fun r w' post flags same => ?_
        obtain ⟨last, length⟩ := post flags same
        exact ⟨last, by omega⟩
      have refused : ∀ e w', w' = w₁ → ∀ flags : List Bool, (.error e : Except FeedError _) = .ok flags →
          Known libs chainId flags w' ∧ flags.length = verified.length + (count + 1) := by
        intro e w' _ flags same
        cases same
      have unreachable : ∀ e, Sound (fun _ : Unit => Answers none) (fun _ w w' => w' = w) ()
          (fun r w' => ∀ flags, r = .ok flags → Known libs chainId flags w' ∧
            flags.length = verified.length + (count + 1))
          (if verified.length = 0 then (pure (.error e) : Call (Except FeedError (List Bool)))
            else openEach libs chainId (List.range' (verified.length + 1) count) (verified ++ [false]))
          w₁ := by
        intro e
        by_cases first : verified.length = 0
        · rw [if_pos first]
          exact refused e
        · rw [if_neg first]
          refine further false (fun flag => by cases flag) fun empty => ?_
          exact absurd (congrArg List.length empty) first
      cases r with
      | ok _ => exact further true (fun _ => reported rfl) fun _ => rfl
      | error e =>
          cases e with
          | chainIdMismatch expected got => exact refused _
          | internal msg => exact unreachable _
          | rpc method detail => exact unreachable _
          | depthRefused method detail => exact unreachable _
          | parse context detail => exact unreachable _

theorem newMulti_known {urls : List String} {startup : World} {flags : List Bool}
    (opened : Relation.ReflTransGen (Step fun _ : Unit => Answers none)
      (World.fresh, fun _ => newMulti libs urls chainId) (startup, fun _ => .ret (.ok flags))) :
    Known libs chainId flags startup ∧ flags.length = urls.length ∧ urls ≠ [] := by
  have sound : Sound (fun _ : Unit => Answers none) (fun _ w w' => w' = w) () (fun r w' =>
      ∀ flags, r = .ok flags → Known libs chainId flags w' ∧ flags.length = urls.length ∧ urls ≠ [])
      (newMulti libs urls chainId) World.fresh := by
    unfold newMulti
    by_cases none : urls = []
    · rw [if_pos none]
      intro w' _ flags same
      cases same
    · rw [if_neg none, List.range_eq_range']
      refine (openEach_sound ⟨by rintro x ⟨⟩, by rintro i ⟨⟩, .inl rfl⟩).mono fun r w' post flags same => ?_
      obtain ⟨known, length⟩ := post flags same
      exact ⟨known, by simpa using length, none⟩
  exact returned opening_steady (Q := fun _ r w' => ∀ flags, r = .ok flags →
    Known libs chainId flags w' ∧ flags.length = urls.length ∧ urls ≠ []) (fun _ => sound) opened
      (t := ()) rfl flags rfl

/-- A feed begins guarded. -/
theorem Known.guarded {flags : List Bool} (h : Known libs chainId flags w) :
    Guarded libs chainId (w.opened flags) := by
  refine ⟨h.reported, fun before x after split data => absurd ?_ data⟩
  have split : w.exchanges = before ++ x :: after := split
  exact (h.opening x (split ▸ List.mem_append_right _ List.mem_cons_self)).1

theorem Known.own {flags : List Bool} (h : Known libs chainId flags w) (t : Nat) :
    (w.opened flags).own (some t) = [] := by
  rw [World.own, List.filter_eq_nil_iff]
  intro x mem mine
  have caller := (h.opening x mem).2
  rw [decide_eq_true_iff, caller] at mine
  cases mine

end Opening

/-- What the process asks its feed. -/
inductive Query
  | finalized
  | blockUpdate (n : Nat)

inductive Reply
  | finalized (n : Nat)
  | block (fetched : FetchedBlock)
  deriving DecidableEq

def serve (urls : List String) : Query → Call (Except FeedError Reply)
  | .finalized => do
      let result ← finalized libs urls chainId
      return result.map .finalized
  | .blockUpdate n => do
      let result ← blockUpdate libs keccak256 urls chainId n
      return result.map .block

/-- A call's exchanges are those of the endpoints in order, and its result is what they come to. -/
def Accounts (urls : List String) (caller : Option Nat) (xs : List Exchange) :
    Query → Except FeedError Reply → Prop
  | .finalized, r => ∃ result, r = result.map .finalized ∧
      Tried libs chainId caller FINALIZED (finalizedOn libs) (numbered urls) [] xs result
  | .blockUpdate n, r => ∃ result, r = result.map .block ∧
      Tried libs chainId caller s!"block_update({n})" (blockUpdateOn libs keccak256 n) (numbered urls) []
        xs result

/-- A block's credits and changes as endpoint `i` gave them to one call, its last two exchanges. -/
structure Whole (caller : Option Nat) (n : Nat) (xs : List Exchange) (fetched : FetchedBlock)
    (i : Nat) : Prop where
  exchanged : ∃ init block trace credited,
    xs = init ++ [⟨caller, i, blockRequest n, block⟩, ⟨caller, i, traceRequest n, trace⟩] ∧
      readCredits libs n (readReply libs (blockRequest n).method block) = .ok credited ∧
      readUpdate libs keccak256 n credited (readReply libs (traceRequest n).method trace) = .ok fetched

section Results

variable {libs : Libraries} {keccak256 : Address → AddressHash} {chainId n i t : Nat}
  {urls : List String} {caller : Option Nat} {xs : List Exchange} {w : World} {α : Type}

theorem blockUpdateOn_heard {fetched : FetchedBlock}
    (heard : (blockUpdateOn libs keccak256 n i).Heard (seen caller) xs (.ok fetched)) :
    Whole libs keccak256 caller n xs fetched i := by
  obtain ⟨ys, zs, block, rfl, replied, later⟩ := Prog.Heard.of_bind heard
  obtain ⟨outcome, rfl, rfl⟩ := call_heard replied
  cases credits : readCredits libs n (readReply libs (blockRequest n).method outcome) with
  | error e =>
      rw [credits] at later
      cases later
  | ok credited =>
      rw [credits] at later
      obtain ⟨vs, ws, trace, rfl, replied, read⟩ := Prog.Heard.of_bind later
      obtain ⟨outcome', rfl, rfl⟩ := call_heard replied
      generalize result : (Except.ok fetched : Except FeedError FetchedBlock) = r at read
      cases read
      exact ⟨[], outcome, outcome', credited, rfl, credits, result.symm⟩

/-- What a call returns was served by one of its endpoints, whole. -/
theorem Tried.served_by {method : String} {on : Nat → Call (Except FeedError α)}
    {endpoints : List (Nat × String)} {failures : List String} {r : Except FeedError α}
    (h : Tried libs chainId caller method on endpoints failures xs r) {a : α} (served : r = .ok a) :
    ∃ endpoint ∈ endpoints, ∃ init ys, xs = init ++ ys ∧ (on endpoint.1).Heard (seen caller) ys (.ok a) := by
  induction h with
  | exhausted failures => cases served
  | served here =>
      cases here with
      | served checked asked =>
          obtain rfl := Except.ok.inj served
          exact ⟨_, List.mem_cons_self, _, _, rfl, asked⟩
  | @declined endpoint rest failures xs ys why r here later ih =>
      obtain ⟨endpoint, mem, init, zs, rfl, asked⟩ := ih served
      exact ⟨endpoint, List.mem_cons_of_mem _ mem, xs ++ init, zs, (List.append_assoc _ _ _).symm, asked⟩

theorem mem_numbered {endpoint : Nat × String} (mem : endpoint ∈ numbered urls) :
    endpoint.1 < urls.length := by
  obtain ⟨pair, inside, rfl⟩ := List.mem_map.mp mem
  have := (List.mem_zipIdx' inside).1
  exact this

theorem serve_sound {query : Query} (guarded : Guarded libs chainId w) (quiet : w.own (some t) = []) :
    Sound (fun t => Answers (some t)) (rely libs chainId) t (fun r w' => Guarded libs chainId w' ∧
      Accounts libs keccak256 chainId urls (some t) (w'.own (some t)) query r)
      (serve libs keccak256 chainId urls query) w := by
  cases query with
  | finalized =>
      refine Sound.bind rely_steady (inOrder_sound (fun _ => finalizedOn_only) guarded)
        fun result w₁ post w' moved => ?_
      obtain ⟨guarded₁, xs, longer, tried⟩ := post
      rw [quiet, List.nil_append] at longer
      refine ⟨moved.1 guarded₁, result, rfl, ?_⟩
      rw [moved.2.2, longer]
      exact tried
  | blockUpdate n =>
      refine Sound.bind rely_steady (inOrder_sound (fun _ => blockUpdateOn_only) guarded)
        fun result w₁ post w' moved => ?_
      obtain ⟨guarded₁, xs, longer, tried⟩ := post
      rw [quiet, List.nil_append] at longer
      refine ⟨moved.1 guarded₁, result, rfl, ?_⟩
      rw [moved.2.2, longer]
      exact tried

variable {startup : World} {flags : List Bool} {asked : Nat → Query}
  {tasks : Nat → Call (Except FeedError Reply)}

/-- The order of things holds behind any schedule of calls, and every call accounts for its own. -/
theorem calls_run
    (opened : Relation.ReflTransGen (Step fun _ : Unit => Answers none)
      (World.fresh, fun _ => newMulti libs urls chainId) (startup, fun _ => .ret (.ok flags)))
    (run : Relation.ReflTransGen (Step fun t => Answers (some t))
      (startup.opened flags, fun t => serve libs keccak256 chainId urls (asked t)) (w, tasks)) :
    Guarded libs chainId w ∧ ∀ t r, tasks t = .ret r →
      Accounts libs keccak256 chainId urls (some t) (w.own (some t)) (asked t) r := by
  have known := (newMulti_known opened).1
  have sound : ∀ t, Sound (fun t => Answers (some t)) (rely libs chainId) t (fun r w' =>
      Guarded libs chainId w' ∧
        Accounts libs keccak256 chainId urls (some t) (w'.own (some t)) (asked t) r)
      (serve libs keccak256 chainId urls (asked t)) (startup.opened flags) :=
    fun t => serve_sound known.guarded (known.own t)
  refine ⟨kept_run (P := fun w w' => Guarded libs chainId w → Guarded libs chainId w') rely_steady sound
    (fun t => ⟨t + 1, Nat.succ_ne_self t, fun w w' moved => moved.1⟩) (fun _ => id)
    (fun first later => later ∘ first) run known.guarded, fun t r done => ?_⟩
  exact (returned rely_steady sound run done).2

theorem Accounts.whole {fetched : FetchedBlock}
    (h : Accounts libs keccak256 chainId urls caller xs (.blockUpdate n) (.ok (.block fetched))) :
    ∃ i < urls.length, Whole libs keccak256 caller n xs fetched i := by
  obtain ⟨result, same, tried⟩ := h
  cases result with
  | error e => cases same
  | ok found =>
      cases same
      obtain ⟨endpoint, mem, init, ys, rfl, heard⟩ := tried.served_by rfl
      obtain ⟨before, block, trace, credited, rfl, credits, reads⟩ := (blockUpdateOn_heard heard).exchanged
      exact ⟨endpoint.1, mem_numbered mem, init ++ before, block, trace, credited,
        (List.append_assoc _ _ _).symm, credits, reads⟩

theorem blockRequest_ne : blockRequest n ≠ chainIdRequest := fun same =>
  absurd (congrArg Request.method same) (show ¬ "eth_getBlockByNumber" = "eth_chainId" by decide)

/-- The endpoint of a block had reported the chain. -/
theorem Whole.reported {fetched : FetchedBlock}
    (h : Whole libs keccak256 caller n (w.own caller) fetched i) (guarded : Guarded libs chainId w) :
    Reported libs chainId i w.exchanges := by
  obtain ⟨init, block, trace, credited, own, -, -⟩ := h.exchanged
  have mem : (⟨caller, i, blockRequest n, block⟩ : Exchange) ∈ w.own caller := by
    rw [own]
    exact List.mem_append_right _ List.mem_cons_self
  obtain ⟨before, after, split⟩ := List.mem_iff_append.mp (List.mem_of_mem_filter mem)
  refine (guarded.first before _ after split blockRequest_ne).mono ?_
  rw [split]
  exact List.subset_append_left _ _

end Results

/-- Calls of one feed under any schedule. An endpoint is asked for data only after it has reported the
deployment's chain, the primary has from the start; a call's exchanges are the endpoints' in order, each
declining before the next is asked; and a block that a call returns is whole from one endpoint. -/
theorem fails_over (libs : Libraries) (keccak256 : Address → AddressHash) (chainId : Nat)
    (urls : List String) {startup : World} {flags : List Bool}
    (opened : Relation.ReflTransGen (Step fun _ : Unit => Answers none)
      (World.fresh, fun _ => newMulti libs urls chainId) (startup, fun _ => .ret (.ok flags)))
    (asked : Nat → Query) {w : World} {tasks : Nat → Call (Except FeedError Reply)}
    (run : Relation.ReflTransGen (Step fun t => Answers (some t))
      (startup.opened flags, fun t => serve libs keccak256 chainId urls (asked t)) (w, tasks)) :
    Reported libs chainId 0 startup.exchanges ∧
      (∀ before x after, w.exchanges = before ++ x :: after → x.request ≠ chainIdRequest →
        Reported libs chainId x.endpoint before) ∧
      ∀ t r, tasks t = .ret r →
        Accounts libs keccak256 chainId urls (some t) (w.own (some t)) (asked t) r ∧
          ∀ n fetched, asked t = .blockUpdate n → r = .ok (.block fetched) → ∃ i < urls.length,
            Reported libs chainId i w.exchanges ∧
              Whole libs keccak256 (some t) n (w.own (some t)) fetched i := by
  have known := newMulti_known opened
  obtain ⟨guarded, accounts⟩ := calls_run opened run
  refine ⟨?_, guarded.first, fun t r done => ⟨accounts t r done, fun n fetched query served => ?_⟩⟩
  · refine known.1.reported 0 ?_
    rcases known.1.primary with none | first
    · rw [none] at known
      exact absurd (List.length_eq_zero_iff.mp known.2.1.symm) known.2.2
    · rw [← List.headD_eq_getD, List.headD_eq_head?_getD, first]
      rfl
  · have account := accounts t r done
    rw [query, served] at account
    obtain ⟨i, listed, whole⟩ := account.whole
    exact ⟨i, listed, whole.reported guarded, whole⟩

section Outage

/-- The next step of one task, its POST coming to `move.2`. -/
def advance {τ α : Type} [DecidableEq τ] (caller : τ → Option Nat) (s : World × (τ → Call α))
    (move : τ × HttpOutcome) : World × (τ → Call α) :=
  match s.2 move.1 with
  | .ret _ => s
  | .ask (.post i request) next =>
      (⟨s.1.verified, s.1.exchanges ++ [⟨caller move.1, i, request, move.2⟩]⟩,
        Function.update s.2 move.1 (next move.2))
  | .ask (.load i) next => (s.1, Function.update s.2 move.1 (next (s.1.verified i)))
  | .ask (.store i) next =>
      (⟨Function.update s.1.verified i true, s.1.exchanges⟩, Function.update s.2 move.1 (next ()))

theorem advance_run {τ α : Type} [DecidableEq τ] (caller : τ → Option Nat)
    (moves : List (τ × HttpOutcome)) (s : World × (τ → Call α)) :
    Relation.ReflTransGen (Step fun t => Answers (caller t)) s (moves.foldl (advance caller) s) := by
  induction moves generalizing s with
  | nil => exact .refl
  | cons move moves ih =>
      refine .trans ?_ (ih _)
      obtain ⟨w, tasks⟩ := s
      unfold advance
      cases here : tasks move.1 with
      | ret a =>
          simp only [here]
          exact .refl
      | ask q next =>
          cases q with
          | post i request =>
              simp only [here]
              exact .single (.ask here (.post w i request move.2))
          | load i =>
              simp only [here]
              exact .single (.ask here (.load w i))
          | store i =>
              simp only [here]
              exact .single (.ask here (.store w i))

/-- The trace of a transaction that leaves account 1 a balance of 5. -/
def toFive : Value :=
  let account := "0x0000000000000000000000000000000000000001"
  .array [.object [("result", .object [
    ("pre", .object [(account, .object [("balance", .string "0x0")])]),
    ("post", .object [(account, .object [("balance", .string "0x5")])])])]]

/-- Libraries that know three replies: a chain, a block without withdrawals, and a trace. -/
def oneByte : Libraries where
  fromSlice
    | [1] => .ok (.object [("result", .string "0x1")])
    | [2] => .ok (.object [("result", .object [])])
    | [3] => .ok (.object [("result", toFive)])
    | _ => .error "expected value at line 1 column 1"
  render _ := ""
  fromUtf8Lossy _ := ""
  statusText status := if status = 403 then "403 Forbidden" else "200 OK"
  debug := id

def twoUrls : List String := ["https://primary", "https://fallback"]

def away : HttpOutcome := .transport "connection refused"

/-- The fallback is away when the feed opens. -/
def startupRun : World × (Unit → Call (Except FeedError (List Bool))) :=
  [((), .response 200 [1]), ((), away)].foldl (advance fun _ => none)
    (World.fresh, fun _ => newMulti oneByte twoUrls 1)

def firstAsks (t : Nat) : Query := if t = 0 then .blockUpdate 1 else .finalized

/-- The primary refuses block 1, and the fallback serves it once it has reported its chain; another
call takes a step between them. -/
def outageRun (keccak256 : Address → AddressHash) : World × (Nat → Call (Except FeedError Reply)) :=
  [(0, away), (0, .response 403 []), (0, away), (1, away), (0, .response 200 [1]), (0, away),
    (0, .response 200 [2]), (0, .response 200 [3])].foldl (advance some)
    (startupRun.1.opened [true, false], fun t => serve oneByte keccak256 1 twoUrls (firstAsks t))

theorem startup_opened : Relation.ReflTransGen (Step fun _ : Unit => Answers none)
    (World.fresh, fun _ => newMulti oneByte twoUrls 1) (startupRun.1, fun _ => .ret (.ok [true, false])) := by
  have known : startupRun.2 = fun _ => .ret (.ok [true, false]) := by
    funext u
    exact Prog.eq_ret_of_result? (by cases u; decide +kernel)
  rw [← known]
  exact advance_run (fun _ => none) _ _

theorem outage_run (keccak256 : Address → AddressHash) :
    Relation.ReflTransGen (Step fun t => Answers (some t))
      (startupRun.1.opened [true, false], fun t => serve oneByte keccak256 1 twoUrls (firstAsks t))
      (outageRun keccak256) :=
  advance_run some _ _

theorem outage_served (keccak256 : Address → AddressHash) : (outageRun keccak256).2 0 =
    .ret (.ok (.block ⟨⟨1, [(keccak256 1, 5)], []⟩, [(1, 5)], []⟩)) :=
  Prog.eq_ret_of_result? (by rfl)

theorem fails_over_outage : ∃ i < 2, Reported oneByte 1 i (outageRun fun _ => 0).1.exchanges ∧
    Whole oneByte (fun _ => 0) (some 0) 1 ((outageRun fun _ => 0).1.own (some 0))
      ⟨⟨1, [(0, 5)], []⟩, [(1, 5)], []⟩ i :=
  ((fails_over oneByte (fun _ => 0) 1 twoUrls startup_opened firstAsks (outage_run _)).2.2 0 _
    (outage_served _)).2 1 _ rfl rfl

end Outage

end RisePir.Feed.Failover
