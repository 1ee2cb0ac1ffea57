import Steward.Config.Loading
import Steward.Proofs.Rotation.Ticks
/-!
Whether the numbers of a tick stay in range: attempts are counted in 32 bits, and a wait must be
shorter than 2^64 seconds. The settings alone tell of which policies all ticks do; a valid
configuration is shown of which a tick does not.
-/
namespace Steward

open Steward.Action World

variable {K : Kit} {w : World K} {id : CellId}

/-- All attempts can be counted, and the longest wait between two of them, in milliseconds, can be
represented. -/
def Config.Rotation.InRange (r : Config.Rotation) : Prop :=
  r.maxRetry.toNat < 2 ^ 32 - 1 ∧
    (r.backoff = .linear → r.maxRetry.toNat = 0 ∨
      r.maxRetry.toNat * r.waitMillis.toNat + r.offsetMillis.toNat < 2 ^ 64 * 1000)

instance (c : Config) : Decidable c.IsValid :=
  match h : c.validate with
  | .ok () => isTrue h
  | .error _ => isFalse fun hvalid => nomatch h.symm.trans hvalid

namespace Rotation

variable {p : Policy}

/-- All attempts can be counted, and every wait between two of them can be represented. -/
structure Policy.InRange (p : Policy) : Prop where
  attempts : p.maxRetry.toNat + 1 < attemptBound
  delays : ∀ retry < p.maxRetry.toNat, (p.delay? retry).isSome = true

theorem Policy.delay?_linear_isSome_iff (h : p.backoff = .linear) {retry : Nat} :
    (p.delay? retry).isSome = true ↔
      retry + 1 < attemptBound ∧ p.wait.nanos * (retry + 1) + p.offset.nanos < Span.bound := by
  rw [Policy.delay?, h]
  dsimp only
  unfold Span.times? Span.add? Span.ofNanos? attemptBound
  split
  · split
    · simp [*]
    · rename_i hbound
      simp only [Option.bind_none, Option.isSome_none, Bool.false_eq_true, false_iff]
      omega
  · simp [*]

theorem delays_linear_iff {wait offset count bound : Nat} :
    (∀ retry < count, wait * (retry + 1) + offset < bound) ↔
      count = 0 ∨ count * wait + offset < bound := by
  constructor
  · intro h
    cases count with
    | zero => exact .inl rfl
    | succ last => exact .inr (Nat.mul_comm wait _ ▸ h last (Nat.lt_succ_self last))
  · rintro (rfl | h) retry hretry
    · exact absurd hretry (Nat.not_lt_zero _)
    · have hle : wait * (retry + 1) ≤ wait * count := Nat.mul_le_mul_left wait hretry
      rw [Nat.mul_comm count wait] at h
      omega

theorem Policy.inRange_ofConfig_iff (r : Config.Rotation) :
    (Policy.ofConfig r).InRange ↔ r.InRange := by
  have hlinear : (∀ retry < r.maxRetry.toNat, r.waitMillis.toNat * 1000000 * (retry + 1) +
      r.offsetMillis.toNat * 1000000 < Span.bound) ↔ r.maxRetry.toNat = 0 ∨
        r.maxRetry.toNat * r.waitMillis.toNat + r.offsetMillis.toNat < 2 ^ 64 * 1000 := by
    rw [delays_linear_iff, Span.bound, nanosPerSecond, ← Nat.mul_assoc]
    omega
  have hcount := r.maxRetry.toNat_lt
  constructor
  · rintro ⟨hattempts, hdelays⟩
    have hattempts' : r.maxRetry.toNat + 1 < 2 ^ 32 := hattempts
    refine ⟨by omega, fun hbackoff => hlinear.1 fun retry hretry => ?_⟩
    exact ((delay?_linear_isSome_iff hbackoff).1 (hdelays retry hretry)).2
  · rintro ⟨hattempts, hbackoff⟩
    refine ⟨Nat.add_lt_of_lt_sub hattempts, fun retry hretry => ?_⟩
    cases hb : r.backoff with
    | constant => rw [delay?_constant hb]; rfl
    | linear =>
      have hretry' : retry < r.maxRetry.toNat := hretry
      refine (delay?_linear_isSome_iff hb).2 ⟨?_, hlinear.2 (hbackoff hb) retry hretry⟩
      rw [attemptBound]
      omega

/-- What a tick comes to whose numbers stay in range: it ends in one of its results unless a hook
panics, it makes no more attempts than can be counted, and after each of them but the last it waits
as the policy says. -/
structure Orderly (p : Policy) (result : Result) (told : Account) : Prop where
  panicked : result = .panicked → told.store = none ∨ .panicked ∈ told.answers
  attempts : told.answers.length < attemptBound
  waits : told.waits.map some = (List.range (told.answers.length - 1)).map p.delay?

theorem Orderly.of_no_answers {result : Result} {store : Option Status}
    (h : result = .panicked → store = none) : Orderly p result ⟨store, [], []⟩ :=
  ⟨fun hresult => .inl (h hresult), Nat.two_pow_pos 32, rfl⟩

section Answers

variable {retries refused : Nat} {answers : List Attempt} {waits : List Span} {finish : Finish}

theorem Attempted.length_le (h : Attempted p retries refused answers waits finish) :
    answers.length ≤ retries + 1 := by
  induction h with
  | again message hdelay _ ih => rw [List.length_cons]; omega
  | _ => simp

theorem Attempted.mem_of_panicked (h : Attempted p retries refused answers waits finish)
    (hfinish : finish.result = .panicked) : .panicked ∈ answers := by
  induction h with
  | panicked => exact List.mem_singleton_self _
  | again message hdelay _ ih => exact List.mem_cons_of_mem _ (ih hfinish)
  | granted | failed | exhausted => cases hfinish

theorem Attempted.orderly (h : Attempted p p.maxRetry.toNat 0 answers waits finish)
    (hp : p.InRange) (store : Option Status) :
    Orderly p finish.result ⟨store, answers, waits⟩ where
  panicked hfinish := .inr (h.mem_of_panicked hfinish)
  attempts := Nat.lt_of_le_of_lt h.length_le hp.attempts
  waits := by
    have hlength : answers.length - 1 = waits.length := by rw [h.length_answers]; rfl
    have hwaits := h.waits_eq
    simp only [Nat.zero_add] at hwaits
    rw [hlength]
    exact hwaits

end Answers

variable {rotates : K.Service → Prop} {s : K.Service}

theorem meets_tickHeldTold_of_inRange (hK : Rotating rotates) (hs : rotates s)
    (hp : (K.policy s).InRange) (name : String) :
    Meets (Cell.owning id) (tickHeldTold id name s)
      (fun _ (result, told) _ => Orderly (K.policy s) result told) w := by
  refine Meets.seq (Cell.owning_of_guarding (Cell.guards_hook (hK.storeStatus hs)))
    fun _ ⟨s', store?⟩ _ _ ⟨_, hs', _, hpolicy⟩ => ?_
  cases store? with
  | none =>
    refine Meets.modify fun _ _ => ⟨trivial, Meets.pure fun _ _ => ?_⟩
    exact .of_no_answers fun _ => rfl
  | some store =>
    dsimp only
    split
    · refine Meets.modify fun _ _ => ⟨trivial, Meets.modify fun _ _ => ⟨trivial, ?_⟩⟩
      exact Meets.pure fun _ _ => .of_no_answers nofun
    · rw [hpolicy]
      have hbound := hp.attempts
      refine Meets.seq (Cell.owning_of_guarding
        (meets_attemptTold hK name (by omega) (fun i hi => hp.delays i (by omega)) hs'))
        fun _ ⟨⟨_, finish⟩, answers, waits⟩ _ _ ⟨_, hattempted, _, _⟩ => ?_
      refine Meets.modify fun _ _ => ⟨trivial, Meets.modify fun _ _ => ⟨trivial, ?_⟩⟩
      exact Meets.pure fun _ _ => hattempted.orderly hp _

variable {c : Cell K}

theorem meets_tickTold_of_inRange (hK : Rotating rotates) (hid : w.bare? id = some c)
    (hinner : c.inner = .service s) (hs : rotates s) (hp : (K.policy s).InRange) :
    Meets (Cell.owning id) (tickTold id)
      (fun _ (result, told) _ => Orderly (K.policy s) result told) w := by
  refine Meets.acquire (Meets.get fun u hu => ?_)
  rw [undestroyed?_of_bare? (hu c hid), hinner]
  cases c.standing.destroyed with
  | true => exact Meets.release (Meets.pure fun _ _ => Orderly.of_no_answers nofun)
  | false =>
    refine Meets.seq (meets_tickHeldTold_of_inRange hK hs hp c.name)
      fun _ ⟨result, told⟩ _ _ horderly => ?_
    exact Meets.release (Meets.pure fun _ _ => horderly)

/-- Every tick is orderly on a component that rotates by this policy, as long as no one else works
on its cell: it can come to an end, and it ends in no other way. -/
def Policy.Endures (p : Policy) : Prop :=
  ∀ {K : Kit} {rotates : K.Service → Prop} {others : World K → World K → Prop} {w : World K}
    {id : CellId} {c : Cell K} {s : K.Service},
    Rotating rotates → (∀ u v, others u v → Guards id u v) → w.cell? id = some c →
    c.inner = .service s → rotates s → K.policy s = p →
    Yields others (tickTold id) w fun _ (result, told) _ => Orderly p result told

theorem Policy.InRange.endures (hp : p.InRange) : p.Endures := by
  rintro K rotates others w id c s hK hothers hc hinner hs rfl
  exact (meets_tickTold_of_inRange hK (bare?_of_cell? hc) hinner hs hp).yields hothers fun h => h

theorem meets_attemptTold_refused {refuses : Nat → K.Service → Prop}
    (hrefuses : ∀ {n s}, refuses (n + 1) s → (K.rotate s).Asks .univ fun r =>
      refuses n r.1 ∧ r.2.IsTransient)
    (name : String) {retries refused : Nat}
    (hrange : attemptBound ≤ refused + 1 + retries ∨
      ∃ i, refused ≤ i ∧ i < refused + retries ∧ p.delay? i = none)
    {s : K.Service} (hs : refuses (retries + 1) s) {w : World K} :
    Meets (Cell.guarding id) (attemptTold name p retries (refused + 1) s)
      (fun _ told _ => told.1.2 = .overflowed ∧ ∀ a ∈ told.2.1, a.IsTransient) w := by
  unfold attemptTold
  split
  · exact Meets.pure fun _ _ => ⟨rfl, List.forall_mem_nil _⟩
  · rename_i hbound
    refine Meets.seq (Cell.guards_hook (hrefuses hs)) ?_
    rintro _ ⟨s', answer⟩ v - ⟨hs', message, rfl⟩
    cases retries with
    | zero =>
      rcases hrange with h | ⟨i, hi, hlt, -⟩
      · exact absurd h hbound
      · omega
    | succ retries =>
      dsimp only
      rw [Nat.add_sub_cancel]
      cases hdelay : p.delay? refused with
      | none =>
        refine Meets.pure fun _ _ => ⟨rfl, fun a ha => ?_⟩
        exact List.mem_singleton.1 ha ▸ ⟨message, rfl⟩
      | some delay =>
        refine Meets.report fun x _ => ⟨guards_of_eq (bare?_report x _), ?_⟩
        have hlater : attemptBound ≤ refused + 1 + 1 + retries ∨
            ∃ i, refused + 1 ≤ i ∧ i < refused + 1 + retries ∧ p.delay? i = none := by
          rcases hrange with h | ⟨i, hi, hlt, hnone⟩
          · exact .inl (by omega)
          · have hne : i ≠ refused := fun h => by simp [h, hdelay] at hnone
            exact .inr ⟨i, by omega, by omega, hnone⟩
        refine Meets.seq (p := attemptTold name p retries (refused + 1 + 1) s')
          (meets_attemptTold_refused hrefuses name hlater hs') ?_
        rintro _ ⟨held, answers, waits⟩ y _ ⟨hheld, hanswers⟩
        exact Meets.pure fun _ _ =>
          ⟨hheld, List.forall_mem_cons.2 ⟨⟨message, rfl⟩, hanswers⟩⟩

def Refused (p : Policy) (n : Nat) (s : Rehearsal.Service) : Prop :=
  ∃ t : Rehearsal.Tenant, s = .tenant t ∧ t.leases = List.replicate n ⟨"transient", none⟩ ∧
    t.policy = p ∧ t.storeStatuses = [] ∧ t.secretStore = none

theorem asks_rotate_refused {n : Nat} {s : Rehearsal.Service} (h : Refused p (n + 1) s) :
    (Rehearsal.kit.rotate s).Asks .univ fun r => Refused p n r.1 ∧ r.2.IsTransient := by
  obtain ⟨t, rfl, hleases, hpolicy, hstatuses, hstore⟩ := h
  have hasks : t.rotateHook.Asks .univ fun r => Refused p n (.tenant r.1) ∧ r.2.IsTransient := by
    refine Hook.asks_note ?_
    rw [hleases]
    exact ⟨⟨_, rfl, rfl, hpolicy, hstatuses, hstore⟩, _, rfl⟩
  exact Hook.Asks.bind (hasks.mono fun r hr => hr)

theorem asks_storeStatus_refused {n : Nat} {s : Rehearsal.Service} (h : Refused p n s) :
    (Rehearsal.kit.storeStatus s).Asks .univ fun r => Refused p n r.1 ∧ r.2 = some .available := by
  obtain ⟨t, rfl, hleases, hpolicy, hstatuses, hstore⟩ := h
  have hasks : t.storeStatusHook.Asks .univ fun r => r = (t, .available) := by
    unfold Rehearsal.Tenant.storeStatusHook
    rw [hstatuses, hstore]
    exact rfl
  refine Hook.Asks.bind (hasks.mono ?_)
  rintro r rfl
  exact ⟨⟨t, rfl, hleases, hpolicy, hstatuses, hstore⟩, rfl⟩

/-- How a tick breaks off although the store can be looked up and no attempt panics. -/
def BrokenOff (result : Result) (told : Account) : Prop :=
  result = .panicked ∧ told.store = some .available ∧ ∀ a ∈ told.answers, a.IsTransient

theorem meets_tickHeldTold_refused (hp : ¬ p.InRange) (name : String) {s : Rehearsal.Service}
    (hs : Refused p (p.maxRetry.toNat + 1) s) {w : World Rehearsal.kit} :
    Meets (Cell.owning id) (tickHeldTold id name s)
      (fun _ (result, told) _ => BrokenOff result told) w := by
  have hrange : attemptBound ≤ 0 + 1 + p.maxRetry.toNat ∨
      ∃ i, 0 ≤ i ∧ i < 0 + p.maxRetry.toNat ∧ p.delay? i = none := by
    by_contra hnot
    rw [not_or, not_exists] at hnot
    refine hp ⟨by omega, fun retry hretry => Option.isSome_iff_ne_none.2 fun hnone => ?_⟩
    exact hnot.2 retry ⟨Nat.zero_le _, by omega, hnone⟩
  refine Meets.seq (Cell.owning_of_guarding (Cell.guards_hook (asks_storeStatus_refused hs)))
    fun _ ⟨s', store?⟩ _ _ ⟨_, hs', hstore⟩ => ?_
  obtain rfl : store? = some .available := hstore
  have hpolicy : Rehearsal.kit.policy s' = p := by
    obtain ⟨t, rfl, -, rfl, -⟩ := hs'
    rfl
  dsimp only
  rw [if_neg (by simp), hpolicy]
  refine Meets.seq (Cell.owning_of_guarding
    (meets_attemptTold_refused asks_rotate_refused name hrange hs'))
    fun _ ⟨⟨_, finish⟩, answers, waits⟩ _ _ ⟨_, hfinish, hanswers⟩ => ?_
  refine Meets.modify fun _ _ => ⟨trivial, Meets.modify fun _ _ => ⟨trivial, ?_⟩⟩
  obtain rfl : finish = .overflowed := hfinish
  exact Meets.pure fun _ _ => ⟨rfl, rfl, hanswers⟩

theorem meets_tickTold_refused (hp : ¬ p.InRange) {s : Rehearsal.Service} {c : Cell Rehearsal.kit}
    {w : World Rehearsal.kit} (hid : w.bare? id = some c) (hinner : c.inner = .service s)
    (hstands : c.standing.destroyed = false) (hs : Refused p (p.maxRetry.toNat + 1) s) :
    Meets (Cell.owning id) (tickTold id) (fun _ (result, told) _ => BrokenOff result told) w := by
  refine Meets.acquire (Meets.get fun u hu => ?_)
  rw [undestroyed?_of_bare? (hu c hid), hinner, hstands]
  refine Meets.seq (meets_tickHeldTold_refused hp c.name hs) fun _ ⟨result, told⟩ _ _ hbroken => ?_
  exact Meets.release (Meets.pure fun _ _ => hbroken)

/-- A tenant of which the store refuses as many leases as the policy asks for. -/
def denied (p : Policy) : Rehearsal.Tenant where
  label := "db"
  slot := .empty "db" .zero
  policy := p
  leases := List.replicate (p.maxRetry.toNat + 1) ⟨"transient", none⟩

def deniedCell (p : Policy) : Cell Rehearsal.kit where
  name := "db"
  inner := .service (.tenant (denied p))
  rotates := true

theorem exists_tick_out_of_range (hp : ¬ p.InRange) :
    ∃ calls result told v, Runs (Guards 0) (tickTold 0) { cells := #[deniedCell p] } calls
      (.done (result, told)) v ∧ BrokenOff result told := by
  have hid : ({ cells := #[deniedCell p] } : World Rehearsal.kit).bare? 0 =
      some (deniedCell p).bare := rfl
  have hmeets := meets_tickTold_refused hp hid rfl rfl ⟨denied p, rfl, rfl, rfl, rfl, rfl⟩
  have hyields := hmeets.yields (fun u v (h : Guards 0 u v) => h) fun h => h
  obtain ⟨calls, ⟨result, told⟩, v, run⟩ := (hyields [] _ _ (.here _ _)).1
  exact ⟨calls, result, told, v, run, (hyields calls _ v run).2 _ rfl⟩

theorem Policy.Endures.inRange (h : p.Endures) : p.InRange := by
  by_contra hp
  obtain ⟨calls, result, told, v, run, rfl, hstore, hanswers⟩ := exists_tick_out_of_range hp
  have horderly := (h rotating_tenant (fun u v (hg : Guards 0 u v) => hg) (c := deniedCell p) rfl
    rfl ⟨denied p, rfl⟩ rfl calls _ v run).2 _ rfl
  rcases horderly.panicked rfl with hnone | hmem
  · rw [hstore] at hnone
    cases hnone
  · obtain ⟨message, hmessage⟩ := hanswers _ hmem
    cases hmessage

/-- All ticks of the policy that is made from some settings are orderly, whatever the store
answers, just if its settings are in range: attempts can be counted in 32 bits, and the last wait
of linear growth is shorter than 2^64 seconds. -/
theorem ticks_endure_iff (r : Config.Rotation) :
    (∀ {K : Kit} (id : CellId), (·.1) <$> (tickTold id : Action K _) = tick id) ∧
      ((Policy.ofConfig r).Endures ↔ r.InRange) :=
  ⟨fun id => map_tickTold id, fun h => (Policy.inRange_ofConfig_iff r).1 h.inRange,
    fun h => ((Policy.inRange_ofConfig_iff r).2 h).endures⟩

/-- A configuration with the longest wait that can be written down, which grows. -/
def steep : Config where
  rotation := { maxRetry := 1001, waitMillis := 18446744073709551615, backoff := .linear }

theorem valid_policy_may_not_endure :
    steep.IsValid ∧ (Policy.ofConfig steep.rotation).delay? 1000 = none ∧
    ∃ calls result told v, Runs (Guards 0) (tickTold 0)
      { cells := #[deniedCell (.ofConfig steep.rotation)] } calls (.done (result, told)) v ∧
      BrokenOff result told := by
  have hrange : ¬ (Policy.ofConfig steep.rotation).InRange := by
    rw [Policy.inRange_ofConfig_iff]
    rintro ⟨-, hlinear⟩
    exact absurd (hlinear rfl) (by decide +kernel)
  exact ⟨by decide +kernel, by decide +kernel, exists_tick_out_of_range hrange⟩

end Rotation

end Steward
