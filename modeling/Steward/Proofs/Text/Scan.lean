import Steward.Text.Scan
/-!
What the small scanners do with a text, as equations.
-/
namespace Steward.Text.Scan

variable {α β : Type} {x y : Scan α} {f : α → Scan β} {a : α} {s t rest : List Char} {c : Char}
  {p : Char → Bool}

@[simp] theorem bind_apply : (x >>= f) s = (x s).bind fun r => f r.1 r.2 := rfl

@[simp] theorem pure_apply : (pure a : Scan α) s = some (a, s) := rfl

@[simp] theorem map_apply {g : α → β} : (g <$> x) s = (x s).map fun r => (g r.1, r.2) := by
  cases h : x s <;> simp [Functor.map, StateT.map, h]

@[simp] theorem discard_apply : (discard x : Scan Unit) s = (x s).map fun r => ((), r.2) :=
  map_apply

@[simp] theorem get_apply : (get : Scan (List Char)) s = some (s, s) := rfl

@[simp] theorem orElse_apply : (x <|> y) s = (x s <|> y s) := rfl

@[simp] theorem peek?_apply : peek? s = some (s.head?, s) := rfl

@[simp] theorem sees_apply : sees t s = some (t.isPrefixOf s, s) := rfl

@[simp] theorem run_apply : run p s = some (s.takeWhile p, s.dropWhile p) := rfl

theorem eat_eq_false (h : t.isPrefixOf s = false) : eat t s = some (false, s) := by
  simp [eat, h]

theorem exactly_eq_none (h : t.isPrefixOf s = false) : exactly t s = none := by
  simp [exactly, h]

@[simp] theorem one_cons : one p (c :: s) = if p c then some (c, s) else none := rfl

theorem maybe_of_eq_some {r : α × List Char} (h : x s = some r) :
    maybe x s = some (some r.1, r.2) := by
  simp [maybe, h]

theorem maybe_of_eq_none (h : x s = none) : maybe x s = some (none, s) := by
  simp [maybe, h]

theorem run_append (ht : ∀ c ∈ t, p c = true) (hrest : ∀ c ∈ rest.head?, p c = false) :
    run p (t ++ rest) = some (t, rest) := by
  rw [run_apply, List.takeWhile_append_of_pos ht, List.dropWhile_append_of_pos ht]
  rcases rest with _ | ⟨c, rest⟩
  · simp
  · have hc := hrest c rfl
    rw [List.takeWhile_cons_of_neg (by simp [hc]), List.dropWhile_cons_of_neg (by simp [hc]),
      List.append_nil]

theorem someRun_append (hsome : t ≠ []) (ht : ∀ c ∈ t, p c = true)
    (hrest : ∀ c ∈ rest.head?, p c = false) : someRun p (t ++ rest) = some (t, rest) := by
  obtain ⟨c, cs, rfl⟩ := List.exists_cons_of_ne_nil hsome
  have hc := ht c List.mem_cons_self
  have hrun := run_append (fun d hd => ht d (List.mem_cons_of_mem c hd)) hrest
  unfold someRun
  rw [List.cons_append, bind_apply, one_cons, if_pos hc, Option.bind_some, bind_apply, hrun]
  rfl

end Steward.Text.Scan
