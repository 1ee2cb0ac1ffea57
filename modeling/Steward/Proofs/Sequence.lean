import Mathlib.Data.List.Find
import Mathlib.Data.List.Forall2
import Mathlib.Data.List.Induction
import Mathlib.Data.List.Nodup
import Mathlib.Logic.Relation
/-!
Lists whose items have to do with the items before them, and lists of results.
-/
namespace Steward

variable {α β ε : Type}

/-- Each item of a list has to do with those before it as `P` says. -/
def Prefixwise (P : List α → α → Prop) (l : List α) : Prop :=
  ∀ before a after, l = before ++ a :: after → P before a

namespace Prefixwise

variable {P : List α → α → Prop} {l : List α}

theorem nil : Prefixwise P [] := fun before a after h => by simp at h

theorem concat {a : α} (h : Prefixwise P l) (ha : P l a) : Prefixwise P (l ++ [a]) := by
  intro before b after heq
  rcases List.eq_nil_or_concat after with rfl | ⟨after', c, rfl⟩
  · obtain ⟨rfl, hab⟩ := List.append_inj' heq rfl
    obtain rfl : a = b := by simpa using hab
    exact ha
  · have hsplit : l = before ++ b :: after' := by
      have : l ++ [a] = (before ++ b :: after') ++ [c] := by simpa using heq
      exact (List.append_inj' this rfl).1
    exact h before b after' hsplit

theorem of_append {l' : List α} (h : Prefixwise P (l ++ l')) : Prefixwise P l :=
  fun before a after heq => h before a (after ++ l') (by simp [heq])

theorem last {a : α} (h : Prefixwise P (l ++ [a])) : P l a := h l a [] rfl

theorem map {Q : List β → β → Prop} (f : α → β) (h : Prefixwise P l)
    (hQ : ∀ before a, P before a → Q (before.map f) (f a)) : Prefixwise Q (l.map f) := by
  intro before b after heq
  obtain ⟨before', rest, rfl, rfl, hrest⟩ := List.map_eq_append_iff.1 heq
  obtain ⟨a, after', rfl, rfl, rfl⟩ := List.map_eq_cons_iff.1 hrest
  exact hQ before' a (h before' a after' rfl)

theorem of_map {Q : List β → β → Prop} (f : α → β) (h : Prefixwise Q (l.map f))
    (hP : ∀ before a, Q (before.map f) (f a) → P before a) : Prefixwise P l := by
  rintro before a after rfl
  exact hP before a (h _ _ (after.map f) (by simp))

theorem filter {Q : List α → α → Prop} (p : α → Bool) (h : Prefixwise P l)
    (hQ : ∀ before a after, l = before ++ a :: after → p a = true → P before a →
      Q (before.filter p) a) : Prefixwise Q (l.filter p) := by
  intro before b after heq
  obtain ⟨before', rest, rfl, rfl, hrest⟩ := List.filter_eq_append_iff.1 heq
  obtain ⟨gone, after', rfl, hgone, hb, rfl⟩ := List.filter_eq_cons_iff.1 hrest
  have hsplit : before' ++ (gone ++ b :: after') = (before' ++ gone) ++ b :: after' := by simp
  have hbefore : (before' ++ gone).filter p = before'.filter p := by
    have hnone : gone.filter p = [] := List.filter_eq_nil_iff.2 hgone
    rw [List.filter_append, hnone, List.append_nil]
  rw [← hbefore]
  exact hQ _ b after' hsplit hb (h _ b after' hsplit)

theorem take {i : Nat} {a : α} (h : Prefixwise P l) (hi : l[i]? = some a) : P (l.take i) a := by
  obtain ⟨hlt, rfl⟩ := List.getElem?_eq_some_iff.1 hi
  refine h (l.take i) l[i] (l.drop (i + 1)) ?_
  rw [List.getElem_cons_drop, List.take_append_drop]

theorem forall_mem {C : α → Prop} (h : Prefixwise P l)
    (hC : ∀ before a, a ∈ l → P before a → (∀ b ∈ before, C b) → C a) : ∀ a ∈ l, C a := by
  induction l using List.reverseRecOn with
  | nil => exact fun a ha => absurd ha List.not_mem_nil
  | append_singleton l a ih =>
    have hbefore : ∀ b ∈ l, C b :=
      ih h.of_append fun before b hb => hC before b (List.mem_append_left _ hb)
    intro b hb
    rcases List.mem_append.1 hb with hb | hb
    · exact hbefore b hb
    · rw [List.mem_singleton.1 hb]
      exact hC l a (by simp) h.last hbefore

end Prefixwise

theorem idxOf_lt_of_before [BEq α] [LawfulBEq α] {before after : List α} {a b : α}
    (hnodup : (before ++ a :: after).Nodup) (hb : b ∈ before) :
    (before ++ a :: after).idxOf b < (before ++ a :: after).idxOf a := by
  have hfresh : a ∉ before := fun ha => (List.nodup_append.1 hnodup).2.2 a ha a (by simp) rfl
  rw [List.idxOf_append_of_mem hb, List.idxOf_append_of_notMem hfresh, List.idxOf_cons_self,
    Nat.add_zero]
  exact List.idxOf_lt_length_of_mem hb

theorem not_transGen_of_rank {ι : Type} [Preorder ι] {R : α → α → Prop} (rank : α → ι)
    (h : ∀ a b, R a b → rank b < rank a) (a : α) : ¬ Relation.TransGen R a a := by
  intro ha
  have hdown : Relation.TransGen (· > ·) (rank a) (rank a) := ha.lift rank h
  rw [Relation.transGen_eq_self] at hdown
  exact lt_irrefl _ hdown

theorem find?_key_of_mem [BEq β] [LawfulBEq β] {key : α → β} {as : List α} {a : α}
    (hnodup : (as.map key).Nodup) (ha : a ∈ as) : as.find? (key · == key a) = some a := by
  have hsome : (as.find? (key · == key a)).isSome = true := by
    simpa using ⟨a, ha, rfl⟩
  obtain ⟨b, hb⟩ := Option.isSome_iff_exists.1 hsome
  have hkey : key b = key a := by simpa using List.find?_some hb
  rwa [List.inj_on_of_nodup_map hnodup (List.mem_of_find?_eq_some hb) ha hkey] at hb

theorem find?_eraseDups [BEq α] [LawfulBEq α] (p : α → Bool) (as : List α) :
    as.eraseDups.find? p = as.find? p := by
  induction h : as.length using Nat.strong_induction_on generalizing as with
  | _ n ih =>
    cases as with
    | nil => rfl
    | cons a as =>
      rw [List.eraseDups_cons, List.find?_cons, List.find?_cons]
      cases ha : p a with
      | true => rfl
      | false =>
        have hlength : (as.filter fun b => !b == a).length < n := by
          have hle := List.length_filter_le (fun b => !b == a) as
          simp only [List.length_cons] at h
          omega
        rw [ih _ hlength _ rfl, List.find?_filter]
        refine List.find?_congr fun b _ => ?_
        by_cases hb : b = a
        · simp [hb, ha]
        · simp [hb]

theorem bind_eq_error {x : Except ε α} {f : α → Except ε β} {e : ε} :
    x >>= f = .error e ↔ x = .error e ∨ ∃ a, x = .ok a ∧ f a = .error e := by
  rcases x with e' | a
  · simp [bind, Except.bind]
  · simp [bind, Except.bind]

theorem bind_eq_ok {x : Except ε α} {f : α → Except ε β} {b : β} :
    x >>= f = .ok b ↔ ∃ a, x = .ok a ∧ f a = .ok b := by
  rcases x with e | a
  · simp [bind, Except.bind]
  · simp [bind, Except.bind]

theorem forall₂_of_mapM {f : α → Except ε β} {as : List α} {bs : List β}
    (h : as.mapM f = .ok bs) : List.Forall₂ (fun a b => f a = .ok b) as bs := by
  induction as generalizing bs with
  | nil =>
    obtain rfl : [] = bs := by simpa [pure, Except.pure] using h
    exact .nil
  | cons a as ih =>
    rw [List.mapM_cons] at h
    obtain ⟨b, hb, h⟩ := bind_eq_ok.1 h
    obtain ⟨rest, hrest, h⟩ := bind_eq_ok.1 h
    obtain rfl : b :: rest = bs := by simpa [pure, Except.pure] using h
    exact .cons hb (ih hrest)

theorem forall₂_of_mapM_some {f : α → Option β} {as : List α} {bs : List β}
    (h : as.mapM f = some bs) : List.Forall₂ (fun a b => f a = some b) as bs := by
  induction as generalizing bs with
  | nil =>
    cases h
    exact .nil
  | cons a as ih =>
    rw [List.mapM_cons] at h
    obtain ⟨b, hb, h⟩ := Option.bind_eq_some_iff.1 h
    obtain ⟨rest, hrest, h⟩ := Option.bind_eq_some_iff.1 h
    cases h
    exact .cons hb (ih hrest)

theorem exists_mapM_ok {f : α → Except ε β} {as : List α} (h : ∀ a ∈ as, ∃ b, f a = .ok b) :
    ∃ bs, as.mapM f = .ok bs := by
  induction as with
  | nil => exact ⟨[], rfl⟩
  | cons a as ih =>
    obtain ⟨b, hb⟩ := h a List.mem_cons_self
    obtain ⟨bs, hbs⟩ := ih fun a' ha' => h a' (List.mem_cons_of_mem a ha')
    exact ⟨b :: bs, by rw [List.mapM_cons, hb, hbs]; rfl⟩

theorem exists_of_mapM_error {f : α → Except ε β} {as : List α} {e : ε}
    (h : as.mapM f = .error e) : ∃ a ∈ as, f a = .error e := by
  induction as with
  | nil => cases h
  | cons a as ih =>
    rw [List.mapM_cons] at h
    rcases bind_eq_error.1 h with ha | ⟨b, -, h⟩
    · exact ⟨a, List.mem_cons_self, ha⟩
    · rcases bind_eq_error.1 h with has | ⟨bs, -, h⟩
      · obtain ⟨a', ha', he⟩ := ih has
        exact ⟨a', List.mem_cons_of_mem a ha', he⟩
      · cases h

theorem map_eq_map_of_forall₂ {γ : Type} {R : α → β → Prop} {as : List α} {bs : List β}
    (f : α → γ) (g : β → γ) (h : List.Forall₂ R as bs) (hR : ∀ a b, R a b → g b = f a) :
    bs.map g = as.map f := by
  induction h with
  | nil => rfl
  | cons hab _ ih => rw [List.map_cons, List.map_cons, hR _ _ hab, ih]

theorem eq_map_of_forall₂ {R : α → β → Prop} {f : α → β} {as : List α} {bs : List β}
    (h : List.Forall₂ R as bs) (hR : ∀ a b, R a b → b = f a) : bs = as.map f :=
  (List.map_id bs).symm.trans (map_eq_map_of_forall₂ f id h hR)

theorem exists_left_of_forall₂ {R : α → β → Prop} {as : List α} {bs : List β} {b : β}
    (h : List.Forall₂ R as bs) (hb : b ∈ bs) : ∃ a ∈ as, R a b := by
  induction h with
  | nil => exact absurd hb List.not_mem_nil
  | @cons a c _ _ hac _ ih =>
    rcases List.mem_cons.1 hb with rfl | hb
    · exact ⟨a, List.mem_cons_self, hac⟩
    · obtain ⟨a', ha', hab⟩ := ih hb
      exact ⟨a', List.mem_cons_of_mem _ ha', hab⟩

theorem exists_right_of_forall₂ {R : α → β → Prop} {as : List α} {bs : List β} {a : α}
    (h : List.Forall₂ R as bs) (ha : a ∈ as) : ∃ b ∈ bs, R a b :=
  exists_left_of_forall₂ h.flip ha

theorem exists_concat_of_forall₂ {R : α → β → Prop} {as : List α} {a : α} {bs : List β}
    (h : List.Forall₂ R (as ++ [a]) bs) :
    ∃ bs' b, bs = bs' ++ [b] ∧ List.Forall₂ R as bs' ∧ R a b := by
  induction as generalizing bs with
  | nil =>
    obtain ⟨b, rest, hab, hrest, rfl⟩ := List.forall₂_cons_left_iff.1 h
    obtain rfl := List.forall₂_nil_left_iff.1 hrest
    exact ⟨[], b, rfl, .nil, hab⟩
  | cons c as ih =>
    obtain ⟨d, rest, hcd, hrest, rfl⟩ := List.forall₂_cons_left_iff.1 h
    obtain ⟨bs', b, rfl, hbs', hab⟩ := ih hrest
    exact ⟨d :: bs', b, rfl, .cons hcd hbs', hab⟩

end Steward
