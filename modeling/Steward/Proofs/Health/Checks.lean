import Mathlib.Data.List.Nodup
import Steward.Health.Response
/-!
How checks add up to a response. The overall level is the worst of all that were added, in whatever
order, and checks under names of their own all stay.
-/
namespace Steward.Health

theorem worst_eq_down_iff {a b : Health} : a.worst b = .down ↔ a = .down ∨ b = .down := by
  cases a <;> cases b <;> decide

theorem worst_eq_up_iff {a b : Health} : a.worst b = .up ↔ a = .up ∧ b = .up := by
  cases a <;> cases b <;> decide

theorem eq_of_down_iff_of_up_iff {a b : Health} (hdown : a = .down ↔ b = .down)
    (hup : a = .up ↔ b = .up) : a = b := by
  cases a <;> cases b <;> simp_all

theorem eq_degraded_iff {a : Health} : a = .degraded ↔ a ≠ .down ∧ a ≠ .up := by
  cases a <;> decide

theorem ofStatus_eq_down_iff {s : Status} : ofStatus s = .down ↔ s.acceptsCalls = false := by
  cases s <;> decide

theorem ofStatus_eq_up_iff {s : Status} : ofStatus s = .up ↔ s = .available := by
  cases s <;> decide

@[simp] theorem Check.level_ofSnapshot (s : Snapshot) :
    (Check.ofSnapshot s).level = ofStatus s.status := rfl

@[simp] theorem Check.level_ofSkipped (s : Registry.Skipped) :
    (Check.ofSkipped s).level = .degraded := rfl

namespace Response

variable {r : Response} {c : Check} {cs ds : List Check}

@[simp] theorem level_addCheck : (r.addCheck c).level = r.level.worst c.level := rfl

theorem level_foldl_eq_down_iff :
    (cs.foldl addCheck r).level = .down ↔ r.level = .down ∨ ∃ c ∈ cs, c.level = .down := by
  induction cs generalizing r with
  | nil => simp
  | cons c cs ih => simp [ih, worst_eq_down_iff, or_assoc]

theorem level_foldl_eq_up_iff :
    (cs.foldl addCheck r).level = .up ↔ r.level = .up ∧ ∀ c ∈ cs, c.level = .up := by
  induction cs generalizing r with
  | nil => simp
  | cons c cs ih => simp [ih, worst_eq_up_iff, and_assoc]

theorem level_foldl_perm (h : cs.Perm ds) :
    (cs.foldl addCheck r).level = (ds.foldl addCheck r).level := by
  apply eq_of_down_iff_of_up_iff
  · simp only [level_foldl_eq_down_iff, h.mem_iff]
  · simp only [level_foldl_eq_up_iff, h.mem_iff]

theorem put_of_notMem (h : c.name ∉ cs.map (·.name)) : put cs c = cs ++ [c] := by
  unfold put
  rw [if_neg]
  simpa using h

theorem checks_foldl (h : ((r.checks ++ cs).map (·.name)).Nodup) :
    (cs.foldl addCheck r).checks = r.checks ++ cs := by
  induction cs generalizing r with
  | nil => simp
  | cons c cs ih =>
    have hc : c.name ∉ r.checks.map (·.name) := by
      rw [List.map_append, List.nodup_append] at h
      exact fun hmem => h.2.2 _ hmem c.name (by simp) rfl
    have hput : (r.addCheck c).checks = r.checks ++ [c] := put_of_notMem hc
    rw [← List.singleton_append, ← List.append_assoc, ← hput] at h
    rw [List.foldl_cons, ih h, hput, List.append_assoc, List.singleton_append]

end Response

end Steward.Health
