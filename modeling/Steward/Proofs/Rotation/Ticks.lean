import Steward.Proofs.Rotation.Attempts
import Steward.Rehearsal.Kit
/-!
What a tick does, by what the secret store answers. The answers decide how many attempts are made
and what comes of them; of the cell, a tick changes the status and the credential, and neither if no
credential was granted.
-/
namespace Steward.Rotation

open Steward.Action World Cell

variable {K : Kit} {w : World K} {id cell : CellId}

def Finish.restand : Finish → Standing → Standing
  | .granted _ _ => (·.assign .available)
  | _ => fun s => s

/-- What a tick comes to on a cell `c` that holds the component `s` and is not destroyed. -/
structure Ticked (id : CellId) (c : Cell K) (s : K.Service) (result : Result) (told : Account)
    (v : World K) : Prop where
  panicked : told.store = none → result = .panicked
  /-- A store that is not available is not asked for a credential. -/
  adopted : ∀ store, told.store = some store → store ≠ .available →
    result = .storeStatusAdopted store ∧ told.answers = [] ∧ told.waits = [] ∧
      ∃ s', K.slot s' = K.slot s ∧
        v.bare? id = some { c with inner := .service s', standing := c.standing.assign store }
  /-- Otherwise it is asked, and `r 1`, `r 2` and so on are what it answers. -/
  attempted : told.store = some .available → ∀ r : Nat → Attempt,
    (∀ i a, told.answers[i]? = some a → r (i + 1) = a) → (∀ i, r i ≠ .panicked) →
      Judges (K.policy s).maxRetry.toNat r result told.answers.length ∧
      told.waits.map some = (List.range (told.answers.length - 1)).map (K.policy s).delay? ∧
      (∀ k credential, result = .rotated k → r k = .granted credential →
        ∃ s', K.slot s' = (K.slot s).install credential ∧
          v.bare? id =
            some { c with inner := .service s', standing := c.standing.assign .available }) ∧
      ((∀ k, result ≠ .rotated k) → ∃ s', K.slot s' = K.slot s ∧
        v.bare? id = some { c with inner := .service s' })

variable {rotates : K.Service → Prop} {c : Cell K} {s : K.Service}

theorem Ticked.later {result : Result} {told : Account} {u v : World K}
    (h : Ticked id c s result told u) (huv : Guards id u v) : Ticked id c s result told v where
  panicked := h.panicked
  adopted store hstore hne := by
    obtain ⟨hresult, hanswers, hwaits, s', hslot, hu⟩ := h.adopted store hstore hne
    exact ⟨hresult, hanswers, hwaits, s', hslot, huv _ hu⟩
  attempted hstore r hr hpanics := by
    obtain ⟨hjudges, hwaits, hrotated, hkept⟩ := h.attempted hstore r hr hpanics
    refine ⟨hjudges, hwaits, fun k credential hresult hgranted => ?_, fun hresult => ?_⟩
    · obtain ⟨s', hslot, hu⟩ := hrotated k credential hresult hgranted
      exact ⟨s', hslot, huv _ hu⟩
    · obtain ⟨s', hslot, hu⟩ := hkept hresult
      exact ⟨s', hslot, huv _ hu⟩

theorem undestroyed?_of_bare? {d : Cell K} (hd : w.bare? id = some d) :
    undestroyed? w id = match d.inner with
      | .service s => if d.standing.destroyed then none else some (d.name, s)
      | .mini _ => none := by
  obtain ⟨c, hc, rfl⟩ := exists_cell_of_bare? hd
  rw [undestroyed?, hc]
  rfl

def IsTenant (s : Rehearsal.Service) : Prop := ∃ t, s = .tenant t

theorem rotating_tenant : Rotating (K := Rehearsal.kit) IsTenant where
  slot_withSlot := by
    rintro _ ⟨t, rfl⟩ slot
    rfl
  storeStatus := by
    rintro _ ⟨t, rfl⟩
    have hasks : t.storeStatusHook.Asks .univ fun r =>
        r.1.slot = t.slot ∧ r.1.policy = t.policy := by
      unfold Rehearsal.Tenant.storeStatusHook
      split
      · exact ⟨rfl, rfl⟩
      · exact Hook.asks_statusOf trivial fun _ => ⟨rfl, rfl⟩
      · exact ⟨rfl, rfl⟩
    exact Hook.Asks.bind (hasks.mono fun r hr => ⟨⟨r.1, rfl⟩, hr⟩)
  rotate := by
    rintro _ ⟨t, rfl⟩
    have hasks : t.rotateHook.Asks .univ fun r => r.1.slot = t.slot := by
      refine Hook.asks_note ?_
      dsimp only
      split
      · exact rfl
      · exact rfl
      · exact Hook.asks_clock fun _ => rfl
    exact Hook.Asks.bind (hasks.mono fun r hr => ⟨⟨r.1, rfl⟩, hr⟩)

def tenant : Rehearsal.Tenant where
  label := "db"
  slot := .empty "db" .zero
  policy := default
  leases := [⟨"transient", none⟩]

end Steward.Rotation
