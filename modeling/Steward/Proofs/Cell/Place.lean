import Steward.Proofs.Cell.Request
/-!
How a task keeps to the lock of a cell. Where it is follows from what it holds of the lock, and
from that what it knows of the cell and may do to it: whoever reads knows where the cell stands, and
only who is at work changes that. Every request comes back to where it began, with nothing held.
-/
namespace Steward.Cell

open Steward.Action Telling World

variable {K : Kit} {ρ α β : Type}

structure Subject where
  id : CellId
  name : String
  isMini : Bool

def Subject.Stands (c : Subject) (s : Standing) (w : World K) : Prop :=
  w.face? c.id = some ⟨c.name, c.isMini, s⟩

inductive Place (K : Kit) where
  | away
  /-- It holds the lock for reading, and so many times more; perhaps it is in a call. -/
  | reading (again : Nat) (s : Standing) (isCall : Bool)
  /-- It holds the lock for writing, in a world where the cell stands as in `w`. At work it knows
  its operation and where the cell stood before. -/
  | writing (w : World K) (work : Option (Operation × Standing))

namespace Place

variable (c : Subject)

def Knows : Place K → World K → Prop
  | .away, _ => True
  | .reading _ s _, v => c.Stands s v
  | .writing w _, v => Spares c.id w v

def May : Place K → World K → World K → Prop
  | .writing _ (some _), _, _ => True
  | _, v, w => Spares c.id v w

/-- Where a task is that has made the world so. -/
def after : Place K → World K → Place K
  | .writing _ work, v => .writing v work
  | place, _ => place

def AtWork : Place K → Prop
  | .writing _ (some _) => True
  | _ => False

/-- Where taking the lock leads. From everywhere else it does not lead on, for nobody can have a
lock besides a writer, not even the writer, nor for writing besides a reader. -/
inductive Takes : Place K → Access → Place K → Prop
  | read (s : Standing) : Takes .away .read (.reading 0 s false)
  | again (n : Nat) (s : Standing) (isCall : Bool) :
      Takes (.reading n s isCall) .read (.reading (n + 1) s isCall)
  | write (s : Standing) (w : World K) (hs : c.Stands s w) : Takes .away .write (.writing w none)

inductive Gives : Place K → Place K → Prop
  | last (s : Standing) : Gives (.reading 0 s false) .away
  | again (n : Nat) (s : Standing) (isCall : Bool) :
      Gives (.reading (n + 1) s isCall) (.reading n s isCall)
  | write (w : World K) : Gives (.writing w none) .away

/-- What may be told, and where that leads. -/
inductive Tells : Place K → Mark → Place K → Prop
  | begun {w : World K} (op : Operation) (s : Standing) (hs : c.Stands s w) :
      Tells (.writing w none) (.begun op) (.writing w (some (op, s)))
  | done {w : World K} {op : Operation} {s s' : Standing} {deed : Deed} (hs' : c.Stands s' w)
      (hdoes : Does c.name op s deed s') :
      Tells (.writing w (some (op, s))) (.done op deed) (.writing w none)
  | saw (n : Nat) (s : Standing) (isCall : Bool) :
      Tells (.reading n s isCall) (.saw s) (.reading n s isCall)
  | entered {s : Standing} {method : String} (hgate : s.gate c.name method = .ok ()) :
      Tells (.reading 0 s false) (.entered method s) (.reading 0 s true)
  | left (s : Standing) : Tells (.reading 0 s true) .left (.reading 0 s false)

end Place

/-- From a place on `p` does no more than is due there, whatever the others do with the lock; and if
it ends, then in a place as `post` says. -/
def Abides (c : Subject) : Telling K Mark α → (α → Place K → Prop) → Place K → Prop
  | .done a, post, place => post a place
  | .call (.tell word) next, post, place =>
    ∃ place', place.Tells c word place' ∧ Abides c (next ()) post place'
  | .call (.effect (.update f)) next, post, place =>
    ∀ v, place.Knows c v → place.May c v (f v) ∧ Abides c (next v) post (place.after (f v))
  | .call (.effect (.invoke _)) next, post, place =>
    place.AtWork ∧ ∀ v, place.Knows c v → Abides c (next v) post (place.after v)
  | .call (.effect (.acquire cell access)) next, post, place =>
    (cell = c.id → ∀ place', place.Takes c access place' → Abides c (next ()) post place') ∧
      (cell ≠ c.id → Abides c (next ()) post place)
  | .call (.effect (.release cell)) next, post, place =>
    (cell = c.id → ∃ place', place.Gives place' ∧ Abides c (next ()) post place') ∧
      (cell ≠ c.id → Abides c (next ()) post place)
  | .call (.effect (.rest _)) next, post, place => Abides c (next ()) post place
  | .call (.effect (.restUnlessCancelled _)) next, post, place =>
    ∀ isCancelled, Abides c (next isCancelled) post place
  | .call (.effect (.exit _)) _, _, _ => True

section Abides

variable {c : Subject} {place : Place K} {w : World K}

theorem Abides.mono {p : Telling K Mark α} {post post' : α → Place K → Prop}
    (h : Abides c p post place) (hpost : ∀ a place', post a place' → post' a place') :
    Abides c p post' place := by
  induction p generalizing place with
  | done a => exact hpost a place h
  | call move next ih =>
    cases move with
    | tell word => exact h.imp fun _ h => ⟨h.1, ih () h.2⟩
    | effect e =>
      cases e with
      | update f => exact fun v hv => ⟨(h v hv).1, ih v (h v hv).2⟩
      | invoke what => exact ⟨h.1, fun v hv => ih v (h.2 v hv)⟩
      | acquire cell access =>
        exact ⟨fun hcell q hq => ih () (h.1 hcell q hq), fun hcell => ih () (h.2 hcell)⟩
      | release cell =>
        exact ⟨fun hcell => (h.1 hcell).imp fun _ h => ⟨h.1, ih () h.2⟩,
          fun hcell => ih () (h.2 hcell)⟩
      | rest millis => exact ih () h
      | restUnlessCancelled millis => exact fun b => ih b (h b)
      | exit code => trivial

theorem Abides.bind {p : Telling K Mark α} {f : α → Telling K Mark β}
    {post : β → Place K → Prop}
    (h : Abides c p (fun a place => Abides c (f a) post place) place) :
    Abides c (p >>= f) post place := by
  induction p generalizing place with
  | done a => exact h
  | call move next ih =>
    cases move with
    | tell word => exact h.imp fun _ h => ⟨h.1, ih () h.2⟩
    | effect e =>
      cases e with
      | update g => exact fun v hv => ⟨(h v hv).1, ih v (h v hv).2⟩
      | invoke what => exact ⟨h.1, fun v hv => ih v (h.2 v hv)⟩
      | acquire cell access =>
        exact ⟨fun hcell q hq => ih () (h.1 hcell q hq), fun hcell => ih () (h.2 hcell)⟩
      | release cell =>
        exact ⟨fun hcell => (h.1 hcell).imp fun _ h => ⟨h.1, ih () h.2⟩,
          fun hcell => ih () (h.2 hcell)⟩
      | rest millis => exact ih () h
      | restUnlessCancelled millis => exact fun b => ih b (h b)
      | exit code => trivial

theorem Abides.get {f : World K → α} {g : α → Telling K Mark β} {post : β → Place K → Prop}
    (h : ∀ v, place.Knows c v → Abides c (g (f v)) post (place.after v)) :
    Abides c (silent (get f) >>= g) post place := by
  refine fun v hv => ⟨?_, h v hv⟩
  unfold Place.May
  split
  · trivial
  · exact fun _ hface => hface

theorem Abides.modify {f : World K → World K} {next : Unit → Telling K Mark β}
    {post : β → Place K → Prop} (h : ∀ v, place.Knows c v →
      place.May c v (f v) ∧ Abides c (next ()) post (place.after (f v))) :
    Abides c (silent (modify f) >>= next) post place := h

theorem Abides.acquire {access : Access} {next : Unit → Telling K Mark β}
    {post : β → Place K → Prop}
    (h : ∀ place', place.Takes c access place' → Abides c (next ()) post place') :
    Abides c (silent (acquire c.id access) >>= next) post place :=
  ⟨fun _ => h, fun hne => absurd rfl hne⟩

theorem Abides.acquireRead {next : Unit → Telling K Mark β} {post : β → Place K → Prop}
    (h : ∀ s, Abides c (next ()) post (.reading 0 s false)) :
    Abides c (silent (Action.acquire c.id .read) >>= next) post .away :=
  .acquire fun
    | _, .read s => h s

theorem Abides.acquireWrite {next : Unit → Telling K Mark β} {post : β → Place K → Prop}
    (h : ∀ s w, c.Stands s w → Abides c (next ()) post (.writing w none)) :
    Abides c (silent (Action.acquire c.id .write) >>= next) post .away :=
  .acquire fun
    | _, .write s w hs => h s w hs

theorem Abides.release {next : Unit → Telling K Mark β} {post : β → Place K → Prop}
    {place' : Place K} (hgives : place.Gives place') (h : Abides c (next ()) post place') :
    Abides c (silent (release c.id) >>= next) post place :=
  ⟨fun _ => ⟨place', hgives, h⟩, fun hne => absurd rfl hne⟩

theorem Abides.tell {word : Mark} {next : Unit → Telling K Mark β} {post : β → Place K → Prop}
    {place' : Place K} (htells : place.Tells c word place') (h : Abides c (next ()) post place') :
    Abides c (tell word >>= next) post place := ⟨place', htells, h⟩

theorem Abides.seq {p : Telling K Mark α} {f : α → Telling K Mark β} {mid : α → Place K → Prop}
    {post : β → Place K → Prop} (h : Abides c p mid place)
    (hf : ∀ a place', mid a place' → Abides c (f a) post place') :
    Abides c (p >>= f) post place := Abides.bind (h.mono hf)

def Returns (c : Subject) (place : Place K) (p : Telling K Mark α) : Prop :=
  Abides c p (fun _ place' => place' = place) place

theorem Returns.bind {p : Telling K Mark α} {f : α → Telling K Mark β} (h : Returns c place p)
    (hf : ∀ a, Returns c place (f a)) : Returns c place (p >>= f) := by
  refine Abides.seq h fun a place' hplace => ?_
  subst hplace
  exact hf a

theorem Returns.interpret {ι : Type} {Answer : ι → Type}
    {carry : (i : ι) → Telling K Mark (Answer i)} (h : ∀ i, Returns c place (carry i))
    (p : Program Answer α) : Returns c place (p.interpret carry) := by
  induction p with
  | done a => rfl
  | call i next ih => exact (h i).bind ih

end Abides

/-- A program that never gives up the lock of a cell, if it holds it for writing: where it asks for
that lock once more it waits for ever. -/
def Holds (id : CellId) : Action K α → Prop
  | .done _ => True
  | .call (.update _) next => ∀ v, Holds id (next v)
  | .call (.invoke _) next => ∀ v, Holds id (next v)
  | .call (.acquire cell _) next => cell ≠ id → Holds id (next ())
  | .call (.release cell) next => cell ≠ id ∧ Holds id (next ())
  | .call (.rest _) next => Holds id (next ())
  | .call (.restUnlessCancelled _) next => ∀ isCancelled, Holds id (next isCancelled)
  | .call (.exit _) _ => True

section Holds

variable {id cell : CellId} {p : Action K α}

theorem Holds.bind {f : α → Action K β} (h : Holds id p) (hf : ∀ a, Holds id (f a)) :
    Holds id (p >>= f) := by
  induction p with
  | done a => exact hf a
  | call effect next ih =>
    cases effect with
    | update f => exact fun v => ih v (h v)
    | invoke what => exact fun v => ih v (h v)
    | acquire cell access => exact fun hne => ih () (h hne)
    | release cell => exact ⟨h.1, ih () h.2⟩
    | rest millis => exact ih () h
    | restUnlessCancelled millis => exact fun b => ih b (h b)
    | exit code => trivial

theorem Holds.pure (a : α) : Holds id (Pure.pure a : Action K α) := trivial

theorem Holds.ite {b : Prop} [Decidable b] {q : Action K α} (hp : Holds id p) (hq : Holds id q) :
    Holds id (if b then p else q) := by
  split
  · exact hp
  · exact hq

theorem Holds.interpret {ι : Type} {Answer : ι → Type} {carry : (i : ι) → Action K (Answer i)}
    (h : ∀ i, Holds id (carry i)) (hook : Program Answer α) : Holds id (hook.interpret carry) := by
  induction hook with
  | done a => trivial
  | call i next ih => exact (h i).bind ih

theorem Holds.get {f : World K → α} {g : α → Action K β} (h : ∀ a, Holds id (g a)) :
    Holds id (Action.get f >>= g) := fun v => h (f v)

theorem Holds.modify {f : World K → World K} {next : Unit → Action K β} (h : Holds id (next ())) :
    Holds id (Action.modify f >>= next) := fun _ => h

theorem holds_modify (f : World K → World K) : Holds id (Action.modify f) := fun _ => trivial

theorem Holds.acquire {access : Access} {next : Unit → Action K β}
    (h : cell ≠ id → Holds id (next ())) : Holds id (Action.acquire cell access >>= next) := h

theorem Holds.release {next : Unit → Action K β} (hne : cell ≠ id) (h : Holds id (next ())) :
    Holds id (Action.release cell >>= next) := ⟨hne, h⟩

theorem holds_reading (f : Option (Cell K) → α) : Holds id (reading cell f) :=
  .acquire fun hne => .get fun _ => .release hne (.pure _)

theorem holds_carry (call : Hook.Call) : Holds id (carry call : Action K call.Answer) := by
  cases call with
  | note line => exact holds_modify _
  | rest millis => trivial
  | statusOf other =>
    show Holds id (status other)
    exact holds_reading _
  | clock => exact .get fun _ => .pure _

theorem holds_passMini (scope : Scope) : Holds id (passMini cell scope : Action K _) := by
  refine .get fun inner => ?_
  split
  · exact fun _ => (Holds.interpret holds_carry _).bind fun _ => .modify (.pure _)
  · exact .pure _

theorem holds_tearMini : Holds id (tearMini cell : Action K Ending) := by
  refine .get fun inner => ?_
  split
  · exact fun _ => (Holds.interpret holds_carry _).bind fun _ => .modify (.pure _)
  · exact .pure _

theorem holds_buildMini (token : Token) : Holds id (buildMini cell token : Action K _) :=
  .get fun _ => .acquire fun hne => .get fun _ _ => (holds_passMini _).bind fun _ => .get fun _ =>
    .modify (.release hne (.modify (.ite (.pure _) (.pure _))))

theorem holds_destroyMini : Holds id (destroyMini cell : Action K Unit) := by
  refine .modify (.acquire fun hne => .get fun c => ?_)
  split
  · split
    · exact .modify (.release hne (.pure _))
    · exact .modify (holds_tearMini.bind fun _ => .modify (.release hne (.pure _)))
  · exact .pure _

theorem holds_carryPool (call : PoolHook.Call K.Mini) :
    Holds id (carryPool call : Action K call.Answer) := by
  cases call with
  | plain call => exact holds_carry call
  | report notice => exact holds_modify _
  | enroll name mini => exact fun _ => trivial
  | build other token => exact .get fun _ => .ite (holds_buildMini token) (.pure _)
  | destroy other => exact .get fun _ => .ite holds_destroyMini (.pure _)

theorem holds_pass (scope : Scope) : Holds id (pass cell scope : Action K _) := by
  refine .get fun inner => ?_
  split
  · exact fun _ => (Holds.interpret holds_carryPool _).bind fun _ => .modify (.pure _)
  · exact holds_passMini scope

theorem holds_tear : Holds id (tear cell : Action K Ending) := by
  refine .get fun inner => ?_
  split
  · exact fun _ => (Holds.interpret holds_carryPool _).bind fun _ => .modify (.pure _)
  · exact holds_tearMini

theorem holds_buildHeld (token : Token) (started : Nat) :
    Holds id (buildHeld pass cell token started : Action K _) :=
  .get fun _ _ => (holds_pass _).bind fun _ => .get fun _ => .modify (.pure _)

theorem holds_destroyHeld (d : Cell K) : Holds id (destroyHeld tear cell d) :=
  .ite (.modify (.pure _)) (.modify (holds_tear.bind fun _ => .modify (.pure _)))

theorem holds_attempt (name : String) (policy : Rotation.Policy) (retries attempts : Nat)
    (s : K.Service) : Holds id (Rotation.attempt name policy retries attempts s) := by
  induction retries generalizing attempts s with
  | zero =>
    unfold Rotation.attempt
    refine .ite (.pure _) ((Holds.interpret holds_carry _).bind fun r => ?_)
    obtain ⟨s', answer⟩ := r
    cases answer <;> exact .pure _
  | succ retries ih =>
    unfold Rotation.attempt
    refine .ite (.pure _) ((Holds.interpret holds_carry _).bind fun r => ?_)
    obtain ⟨s', answer⟩ := r
    cases answer with
    | transient message =>
      dsimp only
      split
      · exact .pure _
      · exact .modify (ih _ _)
    | granted credential => exact .pure _
    | failed message => exact .pure _
    | panicked => exact .pure _

theorem holds_rotateHeld : Holds id (rotateHeld cell : Action K Rotation.Result) := by
  refine .get fun found => ?_
  split
  · refine (Holds.interpret holds_carry _).bind fun ⟨s', store?⟩ => ?_
    cases store? with
    | none => exact .modify (.pure _)
    | some store =>
      dsimp only
      split
      · exact .modify (.modify (.pure _))
      · exact (holds_attempt _ _ _ _ _).bind fun _ => .modify (.modify (.pure _))
  · exact .pure _

end Holds

section Requests

variable {c : Subject} {place : Place K} {w : World K}

theorem abides_of_meets {p : Action K α} {post : Calls K → α → World K → Prop}
    {work : Operation × Standing} (hholds : Holds c.id p)
    (h : Meets (working c.id) p post w) :
    Abides c (silent p) (fun a place => ∃ calls v, place = .writing v (some work) ∧ post calls a v)
      (.writing w (some work)) := by
  induction p generalizing post w with
  | done a => exact ⟨[], w, rfl, h w (.refl c.id w)⟩
  | call effect next ih =>
    cases effect with
    | update f => exact fun v hv => ⟨trivial, ih v (hholds v) (h v hv).2⟩
    | invoke what =>
      refine ⟨trivial, fun v hv => (ih v (hholds v) (h v hv).2).mono ?_⟩
      exact fun a place' ⟨calls, x, hplace, hpost⟩ => ⟨_, x, hplace, hpost⟩
    | acquire cell access =>
      exact ⟨fun _ _ htakes => (nomatch htakes), fun hne => ih () (hholds hne) h⟩
    | release cell =>
      exact ⟨fun hcell => absurd hcell hholds.1, fun _ => ih () hholds.2 h⟩
    | rest millis => exact ih () hholds h
    | restUnlessCancelled millis => exact fun b => ih b (hholds b) (h b)
    | exit code => trivial

theorem returns_underLock {op : Operation} {held : Action K (α × Deed)} (hholds : Holds c.id held)
    (hheld : ∀ s w, c.Stands s w → Meets (working c.id) held
      (fun _ r v => Turns c.id op ⟨c.name, c.isMini, s⟩ r.2 v) w) :
    Returns c .away (underLock c.id op held) := by
  refine .acquireWrite fun s w hs => ?_
  refine .tell (.begun op s hs) (.seq (abides_of_meets hholds (hheld s w hs)) ?_)
  rintro ⟨a, deed⟩ _ ⟨calls, v, rfl, s', hs', hdoes⟩
  exact .tell (.done hs' hdoes) (.release (.write v) rfl)

theorem returns_buildTelling (token : Token) :
    Returns c .away (buildTelling c.id token : Telling K Mark _) := by
  refine .get fun v _ => Returns.bind ?_ fun ⟨name, result⟩ => ?_
  · exact returns_underLock (holds_buildHeld token _) fun s w hs =>
      (meets_buildHeld (fun _ _ => minds_pass _) hs token _).mono fun _ _ _ h => h.turns
  · show Returns c .away (silent (buildAfter c.id name result))
    rw [buildAfter, silent_bind]
    refine .modify fun v _ => ⟨spares_of_eq (face?_armAfter result v), ?_⟩
    split <;> rfl

theorem returns_destroyTelling : Returns c .away (destroyTelling c.id : Telling K Mark Unit) := by
  refine .modify fun v _ => ⟨spares_of_eq (face?_cancelTimer v),
    .acquireWrite fun s w hs => ?_⟩
  refine .tell (.begun .destroy s hs) (.get fun v hv => ?_)
  have hface : v.face? c.id = some ⟨c.name, c.isMini, s⟩ := hv _ hs
  obtain ⟨d, hd, hdface⟩ := exists_cell_of_face? hface
  rw [hd]
  refine .seq (abides_of_meets (holds_destroyHeld d)
    (meets_destroyHeld (w := v) (fun _ => True) (face?_of_cell? hd) fun _ _ => minds_tear)) ?_
  rintro deed _ ⟨calls, x, rfl, ⟨s', hs', hdoes⟩, -⟩
  rw [hdface] at hs' hdoes
  exact .tell (.done hs' hdoes) (.release (.write x) rfl)

theorem returns_setStatusTelling (status : Status) :
    Returns c .away (setStatusTelling c.id status : Telling K Mark Unit) := by
  refine returns_underLock (.modify (.pure _)) fun s w hs => ?_
  refine Meets.modify fun v hv => ⟨trivial, Meets.pure fun x hx => ?_⟩
  refine ⟨_, hx _ ?_, .setStatus s status⟩
  rw [face?_assign, if_pos rfl, hv _ hs, Option.map_some]
  rfl

theorem returns_rotateTelling :
    Returns c .away (rotateTelling c.id : Telling K Mark Rotation.Result) := by
  refine returns_underLock (holds_rotateHeld.bind fun _ => .pure _) fun s w hs => ?_
  exact Meets.seq (meets_rotateHeld hs) fun _ result v _ ⟨s', hs', hdoes⟩ =>
    Meets.pure fun x hx => ⟨s', hx _ hs', hdoes⟩

theorem exists_cell_of_stands {s : Standing} (h : c.Stands s w) :
    ∃ d, w.cell? c.id = some d ∧ d.name = c.name ∧ d.standing = s := by
  obtain ⟨d, hd, hface⟩ := exists_cell_of_face? h
  exact ⟨d, hd, congrArg Face.name hface, congrArg Face.standing hface⟩

theorem returns_readingTelling (f : Option (Cell K) → α) :
    Returns c .away (readingTelling c.id f) := by
  refine .acquireRead fun s => ?_
  refine .get fun v hv => ?_
  obtain ⟨d, hd, -, rfl⟩ := exists_cell_of_stands hv
  rw [hd]
  exact .tell (.saw 0 _ false) (.release (.last _) rfl)

theorem returns_carry {s : Standing} {isCall : Bool} {n : Nat} (call : Hook.Call) :
    Returns c (.reading n s isCall) (silent (carry call) : Telling K Mark _) := by
  cases call with
  | note line => exact .modify fun v _ => ⟨spares_of_eq (face?_note v line), rfl⟩
  | rest millis => rfl
  | clock => exact .get fun _ _ => rfl
  | statusOf cell =>
    show Returns c _ (silent (status cell))
    by_cases hcell : cell = c.id
    · subst hcell
      refine .acquire fun
        | _, .again _ _ _ => .get fun _ _ => .release (.again n s isCall) rfl
    · refine ⟨fun h => absurd h hcell, fun _ => .get fun _ _ => ?_⟩
      exact ⟨fun h => absurd h hcell, fun _ => rfl⟩

theorem returns_body {s : Standing} {isCall : Bool} {n : Nat} (body : Hook α) :
    Returns c (.reading n s isCall) (silent (body.interpret carry) : Telling K Mark α) := by
  induction body with
  | done a => rfl
  | call call next ih =>
    show Returns c _ (silent (carry call >>= fun a => (next a).interpret carry))
    rw [silent_bind]
    exact (returns_carry call).bind ih

theorem returns_callTelling (method : String) (body : Cell K → Hook ρ) :
    Returns c .away (callTelling c.id method body) := by
  refine .acquireRead fun s => ?_
  refine .get fun v hv => ?_
  obtain ⟨d, hd, hname, rfl⟩ := exists_cell_of_stands hv
  rw [hd]
  refine .tell (.saw 0 _ false) ?_
  split
  · rename_i hgate
    refine .tell (.entered (hname ▸ hgate)) (.seq (returns_body (body d)) ?_)
    rintro a _ rfl
    exact .tell (.left _) (.release (.last _) rfl)
  · exact .release (.last _) rfl

/-- After each request the task holds nothing, and on its way it did no more than was due. -/
theorem returns_telling (r : Request K ρ) : Returns c .away (r.telling c.id) := by
  cases r with
  | build token => exact returns_buildTelling token
  | destroy => exact returns_destroyTelling
  | setStatus status => exact returns_setStatusTelling status
  | rotate => exact returns_rotateTelling
  | call method body => exact returns_callTelling method body
  | status => exact returns_readingTelling _
  | look => exact returns_readingTelling _

end Requests

end Steward.Cell
