import Steward.Proofs.Crowd.Basic
/-!
What a crowd sends of one cell. The bus keeps the last events only, and none while nobody hears it,
so it does not show afterwards what was sent. But every change of the world shows it: a change sends
of a cell what it adds to a bus that is heard and that no other cell is on. A run of a crowd is told
here together with all that is sent of a cell in it.
-/
namespace Steward

variable {K : Kit} {μ α : Type}

namespace Bus

@[simp] theorem isHeard_send (b : Bus) (e : Event) : (b.send e).isHeard = b.isHeard := by
  unfold send
  split <;> rfl

@[simp] theorem capacity_send (b : Bus) (e : Event) : (b.send e).capacity = b.capacity := by
  unfold send
  split <;> rfl

theorem kept_foldl_send {b : Bus} {es : List Event} (hb : b.isHeard = true)
    (hroom : b.kept.length + es.length ≤ b.capacity) :
    (es.foldl send b).kept = b.kept ++ es := by
  induction es generalizing b with
  | nil => rw [List.foldl_nil, List.append_nil]
  | cons e es ih =>
    rw [List.length_cons] at hroom
    have hkept : (b.send e).kept = b.kept ++ [e] := by
      have hfits : (b.kept ++ [e]).length - b.capacity = 0 := by
        rw [List.length_append, List.length_singleton]
        omega
      simp only [send, if_pos hb, hfits, List.drop_zero]
    rw [List.foldl_cons, ih (by rwa [isHeard_send]), hkept, List.append_assoc,
      List.singleton_append]
    rw [hkept, capacity_send, List.length_append, List.length_singleton]
    omega

end Bus

namespace World

variable {id cell : CellId} {v : World K} {f : World K → World K}

def solo (v : World K) (id : CellId) (b : Bus) : World K :=
  { v with
    bus := b
    cells := v.cells.mapIdx fun cell c => if cell = id then c else { c with attached := false } }

theorem cell?_solo (v : World K) (id : CellId) (b : Bus) (cell : CellId) :
    (v.solo id b).cell? cell =
      (v.cell? cell).map fun c => if cell = id then c else { c with attached := false } :=
  Array.getElem?_mapIdx

theorem cell?_solo_self (v : World K) (id : CellId) (b : Bus) :
    (v.solo id b).cell? id = v.cell? id := by
  simp only [cell?_solo, if_true, Option.map_id']

/-- A change of a world sends these events of a cell, in this order, to whoever hears the bus. -/
def Sends (id : CellId) (f : World K → World K) (v : World K) (es : List Event) : Prop :=
  ∀ b : Bus, b.isHeard = true → (f (v.solo id b)).bus = es.foldl Bus.send b

theorem Sends.unique {es es' : List Event} (h : Sends id f v es) (h' : Sends id f v es') :
    es = es' := by
  let b : Bus := { capacity := es.length + es'.length, listeners := [⟨0, 0⟩] }
  have hkept : (es.foldl Bus.send b).kept = es := Bus.kept_foldl_send rfl (by simp [b])
  have hkept' : (es'.foldl Bus.send b).kept = es' := Bus.kept_foldl_send rfl (by simp [b])
  rw [← hkept, ← hkept', ← h b rfl, ← h' b rfl]

end World

def Telling.Sends (id : CellId) : Telling K μ α → World K → List Event → Prop
  | .call (.effect (.update f)) _, v, es => World.Sends id f v es
  | _, _, es => es = []

theorem Telling.Sends.unique {id : CellId} {p : Telling K μ α} {v : World K} {es es' : List Event}
    (h : p.Sends id v es) (h' : p.Sends id v es') : es = es' := by
  cases p with
  | done a => exact Eq.trans h (Eq.symm h')
  | call move next =>
    cases move with
    | tell word => exact Eq.trans h (Eq.symm h')
    | effect e =>
      cases e with
      | update f => exact World.Sends.unique h h'
      | _ => exact Eq.trans h (Eq.symm h')

namespace Crowd

/-- A run of a crowd, and all that its tasks send of a cell in it. -/
inductive Airs (id : CellId) (others : World K → World K → Prop) (crowd : Crowd K μ) :
    List Event → Crowd K μ → Prop
  | start : Airs id others crowd [] crowd
  | others {es : List Event} {crowd' : Crowd K μ} {w : World K}
      (run : Airs id others crowd es crowd') (h : others crowd'.world w) :
      Airs id others crowd es { crowd' with world := w }
  | task {es new : List Event} {crowd' : Crowd K μ} (t : TaskId) {told : List μ}
      {p : Telling K μ Unit} {w : World K} {locks : CellId → Lock}
      (run : Airs id others crowd es crowd')
      (h : Moves t (crowd'.tasks t) crowd'.world crowd'.locks told p w locks)
      (hsends : (crowd'.tasks t).Sends id crowd'.world new) :
      Airs id others crowd (es ++ new) (crowd'.advance t told p w locks)

end Crowd

end Steward
