import Mathlib.Data.List.Induction
import Steward.Proofs.Rotation.Ticks
/-!
How long a credential is fresh. Whatever was installed, cleared and rotated before, a credential is
fresh while it is in its place and younger than the time to live, and one that went stale stays so.
Ages are exact, but a leap second counts only while the clock is inside it.
-/
namespace Steward

open Steward.Action World

namespace Instant

/-- Nanoseconds since the start of 1970. -/
def total (t : Instant) : Int := t.seconds * nanosPerSecond + t.nanos

structure InRange (t : Instant) : Prop where
  year : isRepresentable (dateOf (Int.fdiv t.seconds secondsPerDay)).1 = true
  nanos : t.nanos < 2 * nanosPerSecond

instance (t : Instant) : Decidable t.InRange :=
  decidable_of_iff (isRepresentable (dateOf (Int.fdiv t.seconds secondsPerDay)).1 = true ∧
    t.nanos < 2 * nanosPerSecond) ⟨fun h => ⟨h.1, h.2⟩, fun h => ⟨h.year, h.nanos⟩⟩

/-- The order in which a clock shows moments. -/
def UpTo (t u : Instant) : Prop :=
  t.seconds < u.seconds ∨ t.seconds = u.seconds ∧ t.nanos ≤ u.nanos

instance (t u : Instant) : Decidable (t.UpTo u) := by unfold UpTo; infer_instance

theorem bounds_of_isRepresentable {days : Int} (h : isRepresentable (dateOf days).1 = true) :
    -10 ^ 8 < days ∧ days < 10 ^ 8 := by
  unfold isRepresentable at h
  simp only [Bool.and_eq_true, decide_eq_true_eq] at h
  unfold dateOf at h
  simp only [Int.fdiv_eq_ediv_of_nonneg _ (show (0 : Int) ≤ 146097 by decide)] at h
  split at h <;> omega

theorem InRange.bounds {t : Instant} (h : t.InRange) :
    -10 ^ 13 < t.seconds ∧ t.seconds < 10 ^ 13 := by
  have hdays := bounds_of_isRepresentable h.year
  rw [secondsPerDay, Int.fdiv_eq_ediv_of_nonneg _ (by decide)] at hdays
  omega

variable {earlier later now : Instant}

theorem nanosSince_eq_sub (hlater : later.inLeapSecond = false)
    (hearlier : earlier.inLeapSecond = false) :
    later.nanosSince earlier = later.total - earlier.total := by
  unfold nanosSince total
  rw [hlater, hearlier]
  simp only [Bool.and_false, Bool.false_eq_true, if_false]
  rw [Int.sub_mul]
  omega

/-- No two moments are as far from each other as the longest time to live that ages are compared
with. -/
theorem nanosSince_lt_longestTtl (hlater : later.InRange) (hearlier : earlier.InRange) :
    later.nanosSince earlier < Slot.longestTtl := by
  have hl := hlater.bounds
  have he := hearlier.bounds
  have hn := hlater.nanos
  unfold nanosSince Slot.longestTtl
  unfold nanosPerSecond at hn ⊢
  dsimp only
  split
  · omega
  · split <;> omega

theorem total_le_of_upTo (h : now.UpTo later) (hnow : now.inLeapSecond = false) :
    now.total ≤ later.total := by
  have hnanos : now.nanos < nanosPerSecond := by simpa [inLeapSecond] using hnow
  unfold total
  unfold nanosPerSecond at hnanos ⊢
  rcases h with h | ⟨h, hle⟩ <;> omega

end Instant

namespace Slot

/-- What is done to the place of a credential. -/
inductive Turn where
  | installed (c : Credential)
  | cleared
  /-- A tick, which installs a credential only if it is granted one. -/
  | rotated (finish : Rotation.Finish)

namespace Turn

def apply (s : Slot) : Turn → Slot
  | .installed c => s.install c
  | .cleared => s.clear
  | .rotated (.granted c _) => s.install c
  | .rotated _ => s

def leaves? : Turn → Option (Option Credential)
  | .installed c => some (some c)
  | .cleared => some none
  | .rotated (.granted c _) => some (some c)
  | .rotated _ => none

variable (s : Slot) (turn : Turn)

theorem current_apply : (turn.apply s).current = turn.leaves?.getD s.current := by
  cases turn with
  | rotated finish => cases finish <;> rfl
  | _ => rfl

theorem owner_apply : (turn.apply s).owner = s.owner := by
  cases turn with
  | rotated finish => cases finish <;> rfl
  | _ => rfl

theorem ttl_apply : (turn.apply s).ttl = s.ttl := by
  cases turn with
  | rotated finish => cases finish <;> rfl
  | _ => rfl

end Turn

/-- The place of a credential after all that was done to it. -/
def after (owner : String) (ttl : Span) (history : List Turn) : Slot :=
  history.foldl Turn.apply (.empty owner ttl)

/-- The last turn that touched the place left a credential in it. -/
def Holds (history : List Turn) (c : Credential) : Prop :=
  (history.filterMap Turn.leaves?).getLast? = some (some c)

section History

variable (owner : String) (ttl : Span) (history : List Turn)

theorem after_concat (turn : Turn) :
    after owner ttl (history ++ [turn]) = turn.apply (after owner ttl history) := by
  simp [after]

theorem owner_after : (after owner ttl history).owner = owner := by
  induction history using List.reverseRecOn with
  | nil => rfl
  | append_singleton history turn ih => rw [after_concat, Turn.owner_apply, ih]

theorem ttl_after : (after owner ttl history).ttl = ttl := by
  induction history using List.reverseRecOn with
  | nil => rfl
  | append_singleton history turn ih => rw [after_concat, Turn.ttl_apply, ih]

theorem current_after :
    (after owner ttl history).current = (history.filterMap Turn.leaves?).getLast?.join := by
  induction history using List.reverseRecOn with
  | nil => rfl
  | append_singleton history turn ih =>
    rw [after_concat, Turn.current_apply, ih]
    cases hleaves : turn.leaves? <;> simp [hleaves]

variable {owner ttl history}

theorem current_after_eq_some_iff {c : Credential} :
    (after owner ttl history).current = some c ↔ Holds history c := by
  rw [current_after, Option.join_eq_some_iff, Holds]

end History

variable {s : Slot} {c : Credential} {now later : Instant}

theorem isFreshAt_iff_of_current (hc : s.current = some c) (hnow : now.InRange)
    (hissued : c.issuedAt.InRange) :
    s.isFreshAt now = true ↔ now.nanosSince c.issuedAt < s.ttl.nanos := by
  unfold isFreshAt
  rw [hc]
  dsimp only
  split
  · rename_i hlong
    have hage := Instant.nanosSince_lt_longestTtl hnow hissued
    simp only [true_iff]
    omega
  · simp

theorem exists_current_of_isFreshAt (h : s.isFreshAt now = true) : ∃ c, s.current = some c := by
  unfold isFreshAt at h
  cases hc : s.current with
  | none => simp [hc] at h
  | some c => exact ⟨c, rfl⟩

theorem isFreshAt_of_upTo (hc : s.current = some c) (hissued : c.issuedAt.inLeapSecond = false)
    (hnow : now.inLeapSecond = false) (hlater : later.inLeapSecond = false)
    (hle : now.UpTo later) (h : s.isFreshAt later = true) : s.isFreshAt now = true := by
  have htotal := Instant.total_le_of_upTo hle hnow
  unfold isFreshAt at h ⊢
  rw [hc] at h ⊢
  dsimp only at h ⊢
  split
  · rfl
  · rename_i hlong
    rw [if_neg hlong, Instant.nanosSince_eq_sub hlater hissued, decide_eq_true_eq] at h
    rw [Instant.nanosSince_eq_sub hnow hissued, decide_eq_true_eq]
    omega

theorem fresh_of_isFreshAt (h : s.isFreshAt now = true) :
    ∃ c, s.current = some c ∧ s.fresh now = .ok c := by
  obtain ⟨c, hc⟩ := exists_current_of_isFreshAt h
  refine ⟨c, hc, ?_⟩
  unfold fresh
  rw [hc]
  exact if_pos h

theorem fresh_of_not_isFreshAt (h : s.isFreshAt now = false) :
    s.fresh now = .error (.temporarilyUnavailable s.owner) := by
  unfold fresh
  cases hc : s.current with
  | none => rfl
  | some c => exact if_neg (by simp [h])

end Slot

namespace Cell

variable {K : Kit} {α : Type} {w : World K} {id : CellId}

/-- What a call that needs a fresh credential is answered, on a component that is found so by a
clock that shows `now`: the gate is asked first, and then the credential. -/
structure Freshly (c : Cell K) (slot : Slot) (now : Instant) (method : String)
    (f : Cell K → Credential → α) (answer : Except Refusal α) : Prop where
  refused : ∀ refusal, c.standing.gate c.name method = .error refusal → answer = .error refusal
  stale : c.standing.gate c.name method = .ok () → slot.isFreshAt now = false →
    answer = .error (.temporarilyUnavailable slot.owner)
  fresh : c.standing.gate c.name method = .ok () → slot.isFreshAt now = true →
    ∃ d, slot.current = some d ∧ answer = .ok (f c d)

theorem Freshly.succeeds_iff {c : Cell K} {slot : Slot} {now : Instant} {method : String}
    {f : Cell K → Credential → α} {answer : Except Refusal α}
    (h : c.Freshly slot now method f answer) :
    (∃ a, answer = .ok a) ↔
      c.standing.gate c.name method = .ok () ∧ slot.isFreshAt now = true := by
  constructor
  · rintro ⟨a, rfl⟩
    cases hgate : c.standing.gate c.name method with
    | error refusal => cases h.refused refusal hgate
    | ok u =>
      cases hfresh : slot.isFreshAt now with
      | false => cases h.stale hgate hfresh
      | true => exact ⟨rfl, rfl⟩
  · rintro ⟨hgate, hfresh⟩
    obtain ⟨d, -, rfl⟩ := h.fresh hgate hfresh
    exact ⟨_, rfl⟩

section Runs

variable {others : World K → World K → Prop} {name : String}

theorem houses_of_reflTransGen (hothers : ∀ u v, others u v → KeepsCells (fun _ => False) u v)
    (hid : w.Houses id name) {u : World K} (hu : Relation.ReflTransGen others w u) :
    u.Houses id name := by
  induction hu with
  | refl => exact hid
  | tail _ hlast ih => exact (hothers _ _ hlast).houses ih

theorem meets_enter_idling (hothers : ∀ u v, others u v → KeepsCells (fun _ => False) u v)
    (hid : w.Houses id name) (method : String) :
    Meets (idling others) (enter id method) (fun _ answer v => ∃ u c,
      Relation.ReflTransGen others w u ∧ Relation.ReflTransGen others u v ∧
      u.cell? id = some c ∧ c.name = name ∧ c.isMini = false ∧
      answer = (c.standing.gate c.name method).map fun _ => c) w := by
  refine Meets.acquire (Meets.get fun u hu => ?_)
  obtain ⟨c, hc, hname, hservice⟩ := houses_of_reflTransGen hothers hid hu
  rw [hc]
  dsimp only
  split
  · rename_i hgate
    refine Meets.pure fun v hv => ⟨u, c, hu, hv, hc, hname, hservice, ?_⟩
    rw [hgate]
    rfl
  · rename_i refusal hgate
    refine Meets.release (Meets.pure fun v hv => ⟨u, c, hu, hv, hc, hname, hservice, ?_⟩)
    rw [hgate]
    rfl

/-- The cell as the gate finds it, and the clock as it is looked at after that, make the answer. -/
theorem meets_freshCall (hothers : ∀ u v, others u v → KeepsCells (fun _ => False) u v)
    (hid : w.Houses id name) (method : String) (f : Cell K → Credential → α) :
    Meets (idling others) (freshCall id method f) (fun _ answer _ => ∃ u v c s,
      Relation.ReflTransGen others w u ∧ Relation.ReflTransGen others u v ∧
      u.cell? id = some c ∧ c.name = name ∧ c.inner = .service s ∧
      c.Freshly (K.slot s) v.wall method f answer) w := by
  refine Meets.seq (meets_enter_idling hothers hid method) ?_
  rintro _ answer v - ⟨u, c, hu, huv, hc, hname, hservice, rfl⟩
  obtain ⟨s, hinner⟩ : ∃ s, c.inner = .service s := by
    cases hinner : c.inner with
    | service s => exact ⟨s, rfl⟩
    | mini m => simp [Cell.isMini, hinner] at hservice
  cases hgate : c.standing.gate c.name method with
  | error refusal =>
    refine Meets.pure fun _ _ => ⟨u, v, c, s, hu, huv, hc, hname, hinner, ?_, ?_, ?_⟩
    · rintro _ hrefusal
      exact congrArg Except.error (Except.error.inj (hgate.symm.trans hrefusal))
    · intro hok
      cases hgate.symm.trans hok
    · intro hok
      cases hgate.symm.trans hok
  | ok _ =>
    refine Meets.get fun x hx => Meets.release ?_
    rw [hinner]
    refine Meets.pure fun _ _ => ⟨u, x, c, s, hu, huv.trans hx, hc, hname, hinner, ?_, ?_, ?_⟩
    · intro _ hrefusal
      cases hgate.symm.trans hrefusal
    · intro _ hstale
      rw [Slot.fresh_of_not_isFreshAt hstale]
      rfl
    · intro _ hfresh
      obtain ⟨d, hd, hanswer⟩ := Slot.fresh_of_isFreshAt hfresh
      refine ⟨d, hd, ?_⟩
      rw [hanswer]
      rfl

end Runs

end Cell

namespace Rotation

open Slot (Turn Holds after)

theorem slot_keep {K : Kit} {rotates : K.Service → Prop} (hK : Rotating rotates) {s : K.Service}
    (hs : rotates s) (finish : Finish) :
    K.slot (finish.keep s) = (Turn.rotated finish).apply (K.slot s) := by
  cases finish with
  | granted c attempts => exact hK.slot_withSlot hs _
  | _ => rfl

/-- Whatever was done to the place of a credential, the one in it is fresh while its age is below the
time to live, exactly so to the nanosecond. Of moments outside leap seconds the age is what the
calendar says, and no credential is fresh again once it was stale. A call that needs a fresh
credential succeeds just if the gate admits it and the credential is fresh; it tells the refusal of
the gate first, and else that the owner of the place is temporarily unavailable. -/
theorem fresh_while_younger_than_ttl (owner : String) (ttl : Span) (history : List Turn)
    (hissued : ∀ c, Holds history c → c.issuedAt.InRange) :
    (after owner ttl history).owner = owner ∧
    (∀ now : Instant, now.InRange → ((after owner ttl history).isFreshAt now = true ↔
      ∃ c, Holds history c ∧ now.nanosSince c.issuedAt < ttl.nanos)) ∧
    (∀ (c : Credential) (now later : Instant), Holds history c → c.issuedAt.inLeapSecond = false →
      now.inLeapSecond = false → later.inLeapSecond = false →
      now.nanosSince c.issuedAt = now.total - c.issuedAt.total ∧
      (now.UpTo later → (after owner ttl history).isFreshAt later = true →
        (after owner ttl history).isFreshAt now = true)) ∧
    (∀ {K : Kit} {rotates : K.Service → Prop} {s : K.Service}, Rotating rotates → rotates s →
      ∀ finish, K.slot (finish.keep s) = (Turn.rotated finish).apply (K.slot s)) ∧
    ∀ {K : Kit} {α : Type} {others : World K → World K → Prop} {w : World K} {id : CellId}
      {name : String}, (∀ u v, others u v → KeepsCells (fun _ => False) u v) → w.Houses id name →
      ∀ (method : String) (f : Cell K → Credential → α),
      Yields others (Cell.freshCall id method f) w fun _ answer _ => ∃ u v c s,
        Relation.ReflTransGen others w u ∧ Relation.ReflTransGen others u v ∧
        u.cell? id = some c ∧ c.name = name ∧ c.inner = .service s ∧
        c.Freshly (K.slot s) v.wall method f answer ∧
        ((∃ a, answer = .ok a) ↔ c.standing.gate name method = .ok () ∧
          (K.slot s).isFreshAt v.wall = true) := by
  refine ⟨Slot.owner_after owner ttl history, fun now hnow => ?_, ?_, ?_, ?_⟩
  · constructor
    · intro hfresh
      obtain ⟨c, hc⟩ := Slot.exists_current_of_isFreshAt hfresh
      have hholds := Slot.current_after_eq_some_iff.1 hc
      rw [Slot.isFreshAt_iff_of_current hc hnow (hissued c hholds), Slot.ttl_after] at hfresh
      exact ⟨c, hholds, hfresh⟩
    · rintro ⟨c, hholds, hage⟩
      have hc : (after owner ttl history).current = some c :=
        Slot.current_after_eq_some_iff.2 hholds
      rwa [Slot.isFreshAt_iff_of_current hc hnow (hissued c hholds), Slot.ttl_after]
  · intro c now later hholds hc hnow hlater
    refine ⟨Instant.nanosSince_eq_sub hnow hc, fun hle => ?_⟩
    exact Slot.isFreshAt_of_upTo (Slot.current_after_eq_some_iff.2 hholds) hc hnow hlater hle
  · exact fun hK hs finish => slot_keep hK hs finish
  · intro K α others w id name hothers hid method f
    refine Yields.mono ((Cell.meets_freshCall hothers hid method f).yields
      (fun _ _ => .single) fun h => h) ?_
    rintro _ answer _ ⟨u, v, c, s, hu, hv, hc, rfl, hinner, hfreshly⟩
    exact ⟨u, v, c, s, hu, hv, hc, rfl, hinner, hfreshly, hfreshly.succeeds_iff⟩

/-- The start of the year 2024. -/
def newYear : Instant := ⟨1704067200, 0⟩

/-- The place of a credential that is cleared after the first one and filled again by a tick. -/
def renewed : List Turn :=
  [.installed (Rehearsal.Tenant.credential "boot" default), .cleared,
    .rotated (.exhausted 3 "transient"),
    .rotated (.granted (Rehearsal.Tenant.credential "1" newYear) 1)]

def hour : Span := .ofSeconds 3600

/-- The cell of a tenant that holds this credential and is available. -/
def renewedCell : Cell Rehearsal.kit where
  name := "db"
  inner := .service (.tenant { tenant with slot := after "owner" hour renewed })
  standing := { status := .available, phase := .built, built := true }

theorem fresh_while_younger_than_ttl_renewed :
    (after "owner" hour renewed).isFreshAt ⟨1704070799, 999999999⟩ = true ∧
    (after "owner" hour renewed).isFreshAt ⟨1704070800, 0⟩ = false ∧
    ∃ calls v, Runs (Keeps fun _ => False) (Cell.freshCall 0 "query" fun _ d => d.username)
      { cells := #[renewedCell], wall := newYear } calls (.done (.ok "svc-1")) v ∧
      ∃ (u v' : World Rehearsal.kit) (c : Cell Rehearsal.kit) (s : Rehearsal.Service),
        u.cell? 0 = some c ∧ c.inner = .service s ∧ c.standing.gate "db" "query" = .ok () ∧
        s.slot.isFreshAt v'.wall = true := by
  have hissued : ∀ c, Holds renewed c → c.issuedAt.InRange := by
    intro c hc
    obtain rfl := Option.some.inj (Option.some.inj hc)
    decide +kernel
  obtain ⟨-, hfresh, hsteady, -, hcall⟩ :=
    fresh_while_younger_than_ttl "owner" hour renewed hissued
  have hholds : Holds renewed (Rehearsal.Tenant.credential "1" newYear) := rfl
  have hlast : (after "owner" hour renewed).isFreshAt ⟨1704070799, 999999999⟩ = true :=
    (hfresh _ (by decide +kernel)).2 ⟨_, hholds, by decide +kernel⟩
  have hstale : ¬ (after "owner" hour renewed).isFreshAt ⟨1704070800, 0⟩ = true := by
    rw [hfresh _ (by decide +kernel)]
    rintro ⟨c, hc, hage⟩
    obtain rfl := Option.some.inj (Option.some.inj hc)
    exact absurd hage (by decide +kernel)
  have halone : (alone (Cell.freshCall (K := Rehearsal.kit) 0 "query" fun _ d => d.username)
      { cells := #[renewedCell], wall := newYear }).map (·.2.1) = some (.ok "svc-1") := by
    decide +kernel
  obtain ⟨⟨calls, _, v⟩, hrun, rfl⟩ := Option.map_eq_some_iff.1 halone
  have run : Runs (Keeps fun _ => False) (Cell.freshCall 0 "query" fun _ d => d.username)
      { cells := #[renewedCell], wall := newYear } calls (.done (.ok "svc-1")) v := runs_alone hrun
  have hkeeps : ∀ u v : World Rehearsal.kit, Keeps (fun _ => False) u v →
      KeepsCells (fun _ => False) u v := fun u v h => h.cells
  have hhouses : ({ cells := #[renewedCell], wall := newYear } : World Rehearsal.kit).Houses 0 "db" :=
    ⟨renewedCell, rfl, rfl, rfl⟩
  have hyields := hcall hkeeps hhouses "query" fun _ d => d.username
  obtain ⟨u, v', c, s, -, -, hc, -, hinner, -, hiff⟩ := (hyields calls _ v run).2 _ rfl
  obtain ⟨hgate, hslot⟩ := hiff.1 ⟨_, rfl⟩
  exact ⟨hlast, by simpa using hstale, calls, v, run, u, v', c, s, hc, hinner, hgate, hslot⟩

theorem stale_in_leap_second_fresh_after :
    ∃ issued leap later, Instant.read? "2016-12-31T23:59:00Z".toList = some issued ∧
      Instant.read? "2016-12-31T23:59:60.5Z".toList = some leap ∧
      Instant.read? "2017-01-01T00:00:00Z".toList = some later ∧ leap.UpTo later ∧
      let s := Slot.after "db" ⟨60300000000, by decide⟩
        [.installed (Rehearsal.Tenant.credential "1" issued)]
      s.isFreshAt leap = false ∧ s.isFreshAt later = true :=
  ⟨⟨1483228740, 0⟩, ⟨1483228799, 1500000000⟩, ⟨1483228800, 0⟩, by decide +kernel,
    by decide +kernel, by decide +kernel, by decide +kernel, by decide +kernel,
    by decide +kernel⟩

end Rotation

end Steward
