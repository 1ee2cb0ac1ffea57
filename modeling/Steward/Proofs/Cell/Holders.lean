import Steward.Proofs.Cell.Place
/-!
Who holds the lock of a cell. A lock counts those who read and knows who writes; they are those
tasks that are in a place where they hold it.
-/
namespace Steward

variable {K : Kit}

namespace Cell.Place

def shares : Place K → Nat
  | .reading again _ _ => again + 1
  | _ => 0

def IsWriting : Place K → Prop
  | .writing _ _ => True
  | _ => False

end Cell.Place

open Cell

theorem Lock.isNone_of_allows {l : Lock} {access : Access} (h : l.allows access = true) :
    l.writer.isNone = true := by
  cases access with
  | read => exact h
  | write => exact (Bool.and_eq_true_iff.1 h).1

structure Lock.Accounts (l : Lock) (place : TaskId → Place K) : Prop where
  exclusive : l.Exclusive
  writer : ∀ t, l.writer = some t ↔ (place t).IsWriting
  readers : ∀ t, l.readers.count t = (place t).shares

namespace Lock.Accounts

variable {l : Lock} {place : TaskId → Place K} {t : TaskId} {here : Place K} {c : Subject}
  {access : Access}

theorem free : Lock.free.Accounts fun _ => (.away : Place K) :=
  ⟨nofun, fun _ => ⟨nofun, False.elim⟩, fun _ => rfl⟩

theorem update (h : l.Accounts place) (hwriting : here.IsWriting ↔ (place t).IsWriting)
    (hshares : here.shares = (place t).shares) :
    l.Accounts (Function.update place t here) where
  exclusive := h.exclusive
  writer u := by
    obtain rfl | hu := eq_or_ne u t
    · rw [Function.update_self, h.writer, hwriting]
    · rw [Function.update_of_ne hu, h.writer]
  readers u := by
    obtain rfl | hu := eq_or_ne u t
    · rw [Function.update_self, h.readers, hshares]
    · rw [Function.update_of_ne hu, h.readers]

theorem shares_eq_zero (h : l.Accounts place) (ht : (place t).IsWriting) (u : TaskId) :
    (place u).shares = 0 := by
  rw [← h.readers, h.exclusive (by rw [(h.writer t).2 ht]; rfl), List.count_nil]

theorem not_isWriting (h : l.Accounts place) (hwriter : l.writer.isNone = true) (u : TaskId) :
    ¬ (place u).IsWriting := fun hu => by
  rw [(h.writer u).2 hu] at hwriter
  exact Bool.noConfusion hwriter

theorem grantRead (h : l.Accounts place) (hallows : l.allows .read = true)
    (hwriting : ¬ here.IsWriting) (hshares : here.shares = (place t).shares + 1) :
    (l.grant t .read).Accounts (Function.update place t here) where
  exclusive := exclusive_grant hallows
  writer u := by
    obtain rfl | hu := eq_or_ne u t
    · rw [Function.update_self, grant, h.writer]
      exact iff_of_false (h.not_isWriting hallows u) hwriting
    · rw [Function.update_of_ne hu, grant, h.writer]
  readers u := by
    obtain rfl | hu := eq_or_ne u t
    · rw [Function.update_self, grant, List.count_cons_self, h.readers, hshares]
    · rw [Function.update_of_ne hu, grant, List.count_cons_of_ne hu.symm, h.readers]

theorem grantWrite (h : l.Accounts place) (hallows : l.allows .write = true)
    (hwriting : here.IsWriting) (hshares : here.shares = 0) :
    (l.grant t .write).Accounts (Function.update place t here) where
  exclusive := exclusive_grant hallows
  writer u := by
    obtain ⟨hnone, -⟩ := Bool.and_eq_true_iff.1 hallows
    rw [grant, Option.some.injEq]
    obtain rfl | hu := eq_or_ne u t
    · rw [Function.update_self]
      exact iff_of_true rfl hwriting
    · rw [Function.update_of_ne hu]
      exact iff_of_false hu.symm (h.not_isWriting hnone u)
  readers u := by
    obtain ⟨-, hempty⟩ := Bool.and_eq_true_iff.1 hallows
    have hnil : l.readers = [] := List.isEmpty_iff.1 hempty
    have hu := h.readers u
    rw [grant, hnil, List.count_nil]
    rw [hnil, List.count_nil] at hu
    obtain rfl | hne := eq_or_ne u t
    · rw [Function.update_self, hshares]
    · rw [Function.update_of_ne hne, hu]

theorem grant (h : l.Accounts place) (hallows : l.allows access = true)
    (htakes : (place t).Takes c access here) :
    (l.grant t access).Accounts (Function.update place t here) := by
  generalize hplace : place t = p at htakes
  cases htakes with
  | read s => exact h.grantRead hallows id (by rw [hplace]; rfl)
  | again n s isCall => exact h.grantRead hallows id (by rw [hplace]; rfl)
  | write s w hs => exact h.grantWrite hallows trivial rfl

theorem leaveRead (h : l.Accounts place) (ht : ¬ (place t).IsWriting) (hwriting : ¬ here.IsWriting)
    (hshares : (place t).shares = here.shares + 1) :
    (l.leave t).Accounts (Function.update place t here) := by
  have hleave : l.leave t = { l with readers := l.readers.erase t } :=
    if_neg fun hw => ht ((h.writer t).1 hw)
  refine ⟨exclusive_leave h.exclusive t, fun u => ?_, fun u => ?_⟩ <;>
  obtain rfl | hu := eq_or_ne u t
  · rw [Function.update_self, hleave, h.writer]
    exact iff_of_false ht hwriting
  · rw [Function.update_of_ne hu, hleave, h.writer]
  · rw [Function.update_self, hleave, List.count_erase_self, h.readers, hshares]
    rfl
  · rw [Function.update_of_ne hu, hleave, List.count_erase_of_ne hu, h.readers]

theorem leaveWrite (h : l.Accounts place) (ht : (place t).IsWriting) (hwriting : ¬ here.IsWriting)
    (hshares : here.shares = 0) : (l.leave t).Accounts (Function.update place t here) := by
  have hleave : l.leave t = { l with writer := none } := if_pos ((h.writer t).2 ht)
  refine ⟨exclusive_leave h.exclusive t, fun u => ?_, fun u => ?_⟩ <;>
  obtain rfl | hu := eq_or_ne u t
  · rw [Function.update_self, hleave]
    exact iff_of_false nofun hwriting
  · rw [Function.update_of_ne hu, hleave]
    refine iff_of_false nofun fun hwrites => hu (Option.some.inj ?_)
    exact ((h.writer u).2 hwrites).symm.trans ((h.writer t).2 ht)
  · rw [Function.update_self, hleave, h.readers, hshares, h.shares_eq_zero ht]
  · rw [Function.update_of_ne hu, hleave, h.readers]

theorem leave (h : l.Accounts place) (hgives : (place t).Gives here) :
    (l.leave t).Accounts (Function.update place t here) := by
  generalize hplace : place t = p at hgives
  cases hgives with
  | last s => exact h.leaveRead (by rw [hplace]; exact id) id (by rw [hplace]; rfl)
  | again n s isCall => exact h.leaveRead (by rw [hplace]; exact id) id (by rw [hplace]; rfl)
  | write w => exact h.leaveWrite (by rw [hplace]; trivial) id rfl

end Lock.Accounts

end Steward
