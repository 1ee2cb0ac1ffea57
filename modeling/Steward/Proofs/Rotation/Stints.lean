import Steward.Proofs.Rotation.Tidings
/-!
What each task has to do about the timer of a cell that rotates, step by step. Whoever is called to
destroy cancels the timer before anything else. Whoever is called to build arms a new one just if
its pass is of use, after that was told and before anything else is, and then says which. Nothing
else that tasks do has to do with the timer, nor do its own rounds.
-/
namespace Steward

open Steward.Action Telling World

variable {K : Kit} {μ ν α β ρ : Type}

namespace Telling

def Says (q : μ → Prop) : Telling K μ α → Prop
  | .done _ => True
  | .call (.effect _) next => ∀ a, Says q (next a)
  | .call (.tell word) next => q word ∧ Says q (next ())

variable {q : μ → Prop}

theorem says_silent (p : Action K α) : Says q (silent p : Telling K μ α) := by
  induction p with
  | done a => trivial
  | call e next ih => exact ih

theorem says_of_forall {p : Telling K μ α} (hq : ∀ word, q word) : Says q p := by
  induction p with
  | done a => trivial
  | call move next ih =>
    cases move with
    | effect e => exact ih
    | tell word => exact ⟨hq word, ih ()⟩

theorem Says.bind {p : Telling K μ α} {f : α → Telling K μ β} (h : Says q p)
    (hf : ∀ a, Says q (f a)) : Says q (p >>= f) := by
  induction p with
  | done a => exact hf a
  | call move next ih =>
    cases move with
    | effect e => exact fun a => ih a (h a)
    | tell word => exact ⟨h.1, ih () h.2⟩

theorem Says.pure (a : α) : Says q (Pure.pure a : Telling K μ α) := trivial

theorem Says.tell {word : μ} {next : Unit → Telling K μ α} (hword : q word)
    (h : Says q (next ())) : Says q (Telling.tell word >>= next) := ⟨hword, h⟩

theorem Says.silent {p : Action K α} {f : α → Telling K μ β} (hf : ∀ a, Says q (f a)) :
    Says q (Telling.silent p >>= f) := (says_silent p).bind hf

theorem Says.relay {g : ν → μ} {p : Telling K ν α} (h : Says (fun word => q (g word)) p) :
    Says q (relay g p) := by
  induction p with
  | done a => trivial
  | call move next ih =>
    cases move with
    | effect e => exact fun a => ih a (h a)
    | tell word => exact ⟨h.1, ih () h.2⟩

end Telling

open Cell

namespace Rotation

inductive Stint where
  | idle
  /-- It is called to destroy, and has not cancelled the timer yet. -/
  | cancel
  /-- Its pass was of use, and it has not armed a timer yet. -/
  | arm
  /-- It has armed a timer, and has not said which. -/
  | arming (task : TaskId)
  deriving DecidableEq

namespace Tiding

/-- A build pass was through that is of use. -/
def isUsablePass : Tiding → Bool
  | .heard word => word.isUsablePass
  | _ => false

def stint : Tiding → Stint
  | .heard (.called .destroy) => .cancel
  | tiding => if tiding.isUsablePass then .arm else .idle

end Tiding

namespace Stint

/-- What may be told, and where that leads. -/
inductive Tells : Stint → Tiding → Stint → Prop
  | idle (tiding : Tiding) : Tells .idle tiding tiding.stint
  | armed (task : TaskId) : Tells (.arming task) (.armed task) .idle

inductive Writes (id : CellId) : Stint → World K → World K → Stint → Prop
  | leaves (stint : Stint) {v w : World K} (h : LeavesTimer id v w) : Writes id stint v w stint
  | cancels {v w : World K} (h : w = v.cancelTimer id) : Writes id .cancel v w .idle
  | arms {v w : World K} (h : w = v.armTimer id) : Writes id .arm v w (.arming v.nextTask)

end Stint

/-- From a stint on `p` does to the timer of a cell that rotates what is due, and ends with a stint
as `post` says. -/
def Obeys (id : CellId) (isMini : Bool) :
    Telling K Tiding α → (α → Stint → Prop) → Stint → Prop
  | .done a, post, stint => post a stint
  | .call (.tell tiding) next, post, stint =>
    ∃ stint', stint.Tells tiding stint' ∧ Obeys id isMini (next ()) post stint'
  | .call (.effect (.update f)) next, post, stint => ∀ v : World K, v.isMini? id = some isMini →
    v.rotates? id = some true →
      ∃ stint', stint.Writes id v (f v) stint' ∧ Obeys id isMini (next v) post stint'
  | .call (.effect (.invoke _)) next, post, stint => ∀ v : World K, v.isMini? id = some isMini →
    Obeys id isMini (next v) post stint
  | .call (.effect (.acquire _ _)) next, post, stint => Obeys id isMini (next ()) post stint
  | .call (.effect (.release _)) next, post, stint => Obeys id isMini (next ()) post stint
  | .call (.effect (.rest _)) next, post, stint => Obeys id isMini (next ()) post stint
  | .call (.effect (.restUnlessCancelled _)) next, post, stint =>
    ∀ isCancelled, Obeys id isMini (next isCancelled) post stint
  | .call (.effect (.exit _)) _, _, _ => True

section Obeys

variable {id : CellId} {isMini : Bool} {stint : Stint} {post : β → Stint → Prop}

theorem Obeys.seq {p : Telling K Tiding α} {f : α → Telling K Tiding β}
    {mid : α → Stint → Prop} (h : Obeys id isMini p mid stint)
    (hf : ∀ a stint', mid a stint' → Obeys id isMini (f a) post stint') :
    Obeys id isMini (p >>= f) post stint := by
  induction p generalizing stint with
  | done a => exact hf a stint h
  | call move next ih =>
    cases move with
    | tell tiding => exact h.imp fun _ h => ⟨h.1, ih () h.2⟩
    | effect e =>
      cases e with
      | update f => exact fun v hv hr => (h v hv hr).imp fun _ h => ⟨h.1, ih v h.2⟩
      | invoke what => exact fun v hv => ih v (h v hv)
      | acquire cell access => exact ih () h
      | release cell => exact ih () h
      | rest millis => exact ih () h
      | restUnlessCancelled millis => exact fun b => ih b (h b)
      | exit code => trivial

theorem Obeys.mono {p : Telling K Tiding β} {post' : β → Stint → Prop}
    (h : Obeys id isMini p post stint) (hpost : ∀ b stint', post b stint' → post' b stint') :
    Obeys id isMini p post' stint := by
  rw [← bind_pure p]
  exact h.seq hpost

theorem Obeys.of_aloof {p : Telling K Tiding α} {mid : α → Prop}
    (hword : p.Says fun tiding => tiding.stint = .idle) (h : Aloof id isMini p.mute mid) :
    Obeys id isMini p (fun a stint => mid a ∧ stint = .idle) .idle := by
  induction p with
  | done a => exact ⟨h, rfl⟩
  | call move next ih =>
    cases move with
    | tell tiding => exact ⟨.idle, hword.1 ▸ .idle tiding, ih () hword.2 h⟩
    | effect e =>
      cases e with
      | update f => exact fun v hv _ => ⟨.idle, .leaves _ (h v hv).1, ih v (hword v) (h v hv).2⟩
      | invoke what => exact fun v hv => ih v (hword v) (h v hv)
      | acquire cell access => exact ih () (hword ()) h
      | release cell => exact ih () (hword ()) h
      | rest millis => exact ih () (hword ()) h
      | restUnlessCancelled millis => exact fun b => ih b (hword b) (h b)
      | exit code => trivial

theorem Obeys.silent {p : Action K α} {f : α → Telling K Tiding β} {mid : α → Prop}
    (h : Aloof id isMini p mid) (hf : ∀ a, mid a → Obeys id isMini (f a) post .idle) :
    Obeys id isMini (silent p >>= f) post .idle := by
  have hp : Obeys id isMini (Telling.silent p) (fun a stint => mid a ∧ stint = .idle) .idle :=
    .of_aloof (says_silent p) (by rwa [mute_silent])
  refine hp.seq ?_
  rintro a _ ⟨ha, rfl⟩
  exact hf a ha

theorem Obeys.get {f : World K → α} {g : α → Telling K Tiding β}
    (h : ∀ v, Obeys id isMini (g (f v)) post stint) :
    Obeys id isMini (Telling.silent (Action.get f) >>= g) post stint :=
  fun v _ _ => ⟨stint, .leaves stint (.refl id v), h v⟩

theorem Obeys.acquire {cell : CellId} {access : Access} {next : Unit → Telling K Tiding β}
    (h : Obeys id isMini (next ()) post stint) :
    Obeys id isMini (Telling.silent (Action.acquire cell access) >>= next) post stint := h

theorem Obeys.release {cell : CellId} {next : Unit → Telling K Tiding β}
    (h : Obeys id isMini (next ()) post stint) :
    Obeys id isMini (Telling.silent (Action.release cell) >>= next) post stint := h

theorem Obeys.tell {tiding : Tiding} {stint' : Stint} {next : Unit → Telling K Tiding β}
    (htells : stint.Tells tiding stint') (h : Obeys id isMini (next ()) post stint') :
    Obeys id isMini (Telling.tell tiding >>= next) post stint := ⟨stint', htells, h⟩

abbrev Settles (id : CellId) (isMini : Bool) (p : Telling K Tiding α) : Prop :=
  Obeys id isMini p (fun _ stint => stint = .idle) .idle

theorem Settles.interpret {ι : Type} {Answer : ι → Type}
    {carry : (i : ι) → Telling K Tiding (Answer i)} (h : ∀ i, Settles id isMini (carry i))
    (p : Program Answer α) : Settles id isMini (p.interpret carry) := by
  induction p with
  | done a => rfl
  | call i next ih =>
    refine (h i).seq fun a stint hstint => ?_
    subst hstint
    exact ih a

theorem Settles.of_leavesAlone {p : Telling K Tiding α}
    (hword : p.Says fun tiding => tiding.stint = .idle) (h : LeavesAlone id isMini p.mute) :
    Settles id isMini p := (Obeys.of_aloof hword h).mono fun _ _ hend => hend.2

theorem obeys_underLock {op : Operation} {held : Action K (α × Deed)} {mid : α × Deed → Prop}
    (hheld : Aloof id isMini held mid) :
    Obeys id isMini (relay .ofMark (underLock id op held)) (fun a stint =>
      ∃ deed, mid (a, deed) ∧ stint = (Tiding.ofMark (.done op deed)).stint) .idle := by
  simp only [underLock, relay_bind, relay_silent, relay_tell]
  refine .acquire (.tell (.idle _) (.silent hheld fun done hmid => ?_))
  exact .tell (.idle _) (.release ⟨done.2, hmid, rfl⟩)

theorem obeys_armingAfter (report : Report) :
    Obeys id isMini (armingAfter id report : Telling K Tiding Unit) (fun _ stint => stint = .idle)
      (if report.outcome.isUsable then .arm else .idle) := by
  intro v _ hrotates
  obtain ⟨c, hc, hcell⟩ := Option.map_eq_some_iff.1 hrotates
  show ∃ stint', Stint.Writes id _ v (armAfter id report v) stint' ∧
    Obeys id isMini (tellIf ((armed? id report v).map .armed)) _ stint'
  cases husable : report.outcome.isUsable with
  | true =>
    have harms : armAfter id report v = v.armTimer id := by
      unfold armAfter
      rw [hc]
      simp [husable, hcell]
    have harmed : armed? id report v = some v.nextTask := if_pos ⟨husable, hrotates⟩
    rw [harms, harmed]
    exact ⟨_, .arms rfl, _, .armed _, rfl⟩
  | false =>
    have hleaves : armAfter id report v = v := by
      unfold armAfter
      rw [hc]
      simp [husable]
    have harmed : armed? id report v = none := if_neg fun h => by simp [husable] at h
    rw [hleaves, harmed]
    exact ⟨_, .leaves _ (.refl id v), rfl⟩

theorem settles_buildArming (token : Token) :
    Settles id isMini (buildArming id token : Telling K Tiding _) := by
  refine .get fun started => .seq (obeys_underLock (aloof_buildHeld leavesAlone_pass token _)) ?_
  rintro ⟨name, report⟩ _ ⟨deed, ⟨asked, ending, rfl, houtcome⟩, rfl⟩
  have hstint : (Tiding.ofMark (.done (.build token) (.built asked ending))).stint =
      if report.outcome.isUsable then .arm else .idle := houtcome ▸ rfl
  rw [hstint]
  refine (obeys_armingAfter report).seq fun _ stint hend => ?_
  split <;> exact hend

theorem obeys_destroyTelling :
    Obeys id isMini (relay .ofMark (destroyTelling id : Telling K Mark Unit))
      (fun _ stint => stint = .idle) .cancel := by
  simp only [destroyTelling, relay_bind, relay_silent, relay_tell]
  refine fun v _ _ => ⟨.idle, .cancels rfl, .acquire (.tell (.idle _) (.get fun u => ?_))⟩
  cases u.cell? id with
  | none => rfl
  | some c =>
    simp only [relay_bind, relay_silent, relay_tell]
    refine .silent (aloof_destroyHeld leavesAlone_tear c) fun deed hdeed => .tell (.idle _) ?_
    rcases hdeed with rfl | rfl <;> rfl

theorem leavesAlone_tick : LeavesAlone id isMini (tick id : Action K Result) := by
  rw [tick_eq]
  exact .acquire (.seq leavesAlone_rotateHeld fun _ _ => .release (.pure trivial))

theorem leavesAlone_round : LeavesAlone id isMini (round id : Action K Bool) := by
  have hrest (millis : Nat) :
      LeavesAlone id isMini (restUnlessCancelled millis : Action K Bool) := fun _ => trivial
  refine .acquire (.get fun v _ => .release ?_)
  split
  · exact .pure trivial
  · refine .seq (leavesAlone_report _) fun _ _ => .seq (hrest _) fun isCancelled _ => ?_
    split
    · exact .seq (leavesAlone_report _) fun _ _ => .pure trivial
    · refine .seq leavesAlone_tick fun result _ => ?_
      cases result with
      | cancelled => exact .seq (leavesAlone_report _) fun _ _ => .pure trivial
      | _ => exact .pure trivial

theorem leavesAlone_attend (method : String) (body : Cell K → Hook ρ) :
    LeavesAlone id isMini (attend id method body) := by
  have henter : LeavesAlone id isMini (enter id method : Action K _) := by
    refine .acquire (.get fun v _ => ?_)
    split
    · exact .release (.pure trivial)
    · split
      · exact .pure trivial
      · exact .release (.pure trivial)
  refine .seq henter fun entered _ => ?_
  cases entered with
  | error refusal => exact .pure trivial
  | ok c => exact .seq (.interpret leavesAlone_carry _) fun _ _ => .release (.pure trivial)

theorem says_attemptAsking {q : Tiding → Prop} (hasks : q .asks) (name : String) (policy : Policy)
    (retries attempts : Nat) (s : K.Service) :
    (attemptAsking name policy retries attempts s).Says q := by
  unfold attemptAsking
  split
  · exact .pure _
  · refine .tell hasks (.silent ?_)
    rintro ⟨s, answer⟩
    cases answer with
    | transient message =>
      cases retries with
      | zero => exact .pure _
      | succ retries =>
        dsimp only
        split
        · exact .pure _
        · exact .silent fun _ => .silent fun _ => says_attemptAsking hasks name policy retries _ _
    | _ => exact .pure _

theorem says_tickAsking {q : Tiding → Prop} (hasks : q .asks)
    (hbegun : q (.ofMark (.begun .rotate)))
    (hdone : ∀ result, q (.ofMark (.done .rotate (.ofTick result)))) :
    (tickAsking id : Telling K Tiding Result).Says q := by
  have hheld (name : String) (s : K.Service) : (tickHeldAsking id name s).Says q := by
    refine .silent ?_
    rintro ⟨s, store?⟩
    cases store? with
    | none => exact .silent fun _ => .pure _
    | some store =>
      dsimp only
      split
      · exact .silent fun _ => .silent fun _ => .pure _
      · exact (says_attemptAsking hasks _ _ _ _ _).bind fun done =>
          .silent fun _ => .silent fun _ => .pure _
  have hrotate : (rotateHeldAsking id : Telling K Tiding Result).Says q := by
    refine .silent fun found => ?_
    cases found with
    | none => exact .pure _
    | some found => exact hheld found.1 found.2
  exact .silent fun _ => .tell hbegun (hrotate.bind fun result =>
    .tell (hdone result) (.silent fun _ => .pure _))

theorem says_roundAsking {q : Tiding → Prop}
    (htick : (tickAsking id : Telling K Tiding Result).Says q) :
    (roundAsking id : Telling K Tiding Unit).Says q := by
  refine .bind (.silent fun _ => .silent fun next => .silent fun _ => ?_) fun _ => .pure _
  cases next with
  | none => exact .pure _
  | some next =>
    refine .silent fun _ => .silent fun isCancelled => ?_
    split
    · exact .silent fun _ => .pure _
    · refine htick.bind fun result => ?_
      cases result with
      | cancelled => exact .silent fun _ => .pure _
      | _ => exact .pure _

theorem stint_done_rotate (result : Result) :
    (Tiding.ofMark (.done .rotate (.ofTick result))).stint = .idle := by
  cases result <;> rfl

theorem says_readingTelling {q : Mark → Prop} (hsaw : ∀ s, q (.saw s)) (f : Option (Cell K) → α) :
    (readingTelling id f : Telling K Mark α).Says q := by
  refine .silent fun _ => .silent fun c? => ?_
  cases c? with
  | none => exact .silent fun _ => .pure _
  | some c => exact .tell (hsaw _) (.silent fun _ => .pure _)

theorem says_callTelling {q : Mark → Prop} (hsaw : ∀ s, q (.saw s))
    (hentered : ∀ method s, q (.entered method s)) (hleft : q .left) (method : String)
    (body : Cell K → Hook ρ) : (callTelling id method body : Telling K Mark _).Says q := by
  refine .silent fun _ => .silent fun c? => ?_
  cases c? with
  | none => exact .silent fun _ => .pure _
  | some c =>
    refine .tell (hsaw _) ?_
    split
    · exact .tell (hentered _ _) (.silent fun _ => .tell hleft (.silent fun _ => .pure _))
    · exact .silent fun _ => .pure _

theorem mute_serving (r : Request K ρ) : (r.serving id).mute = r.run id := by
  rw [← mute_sift Tiding.mark?, sift_serving, mute_telling]

theorem obeys_serving (r : Request K ρ) :
    Obeys id isMini (r.serving id) (fun _ stint => stint = .idle)
      ((r.operation?.map fun op => (Tiding.heard (.called op)).stint).getD .idle) := by
  have hsettles {s : Request K ρ} (hword : (s.serving id).Says fun tiding => tiding.stint = .idle)
      (hleaves : LeavesAlone id isMini (s.run id)) : Settles id isMini (s.serving id) :=
    .of_leavesAlone hword (by rwa [mute_serving])
  cases r with
  | build token => exact settles_buildArming token
  | destroy => exact obeys_destroyTelling
  | rotate => exact hsettles (says_tickAsking rfl rfl stint_done_rotate) leavesAlone_tick
  | setStatus status =>
    have hword : (setStatusTelling id status : Telling K Mark Unit).Says fun mark =>
        (Tiding.ofMark mark).stint = .idle :=
      .silent fun _ => .tell rfl fun _ => ⟨rfl, .silent fun _ => .pure _⟩
    refine hsettles (.relay hword) ?_
    exact .acquire (.modify (fun w _ => leavesTimer_assign status w) (.release (.pure trivial)))
  | call method body =>
    refine hsettles (.relay (says_callTelling (q := fun mark => (Tiding.ofMark mark).stint = .idle)
      (fun _ => rfl) (fun _ _ => rfl) rfl method body)) ?_
    exact leavesAlone_attend method body
  | status =>
    refine hsettles (.relay (says_readingTelling (fun _ => rfl) _)) ?_
    show LeavesAlone id isMini (status id)
    exact leavesAlone_reading _
  | look =>
    refine hsettles (.relay (says_readingTelling (fun _ => rfl) _)) ?_
    show LeavesAlone id isMini (look id)
    exact leavesAlone_reading _

theorem settles_tidings (r : Request K ρ) : Settles id isMini (r.tidings id) := by
  have hserving : Obeys id isMini (r.serving id) (fun _ stint => stint = .idle) _ :=
    obeys_serving r
  unfold Request.tidings
  cases hop : r.operation? with
  | none =>
    rw [hop] at hserving
    exact hserving.seq fun _ _ hstint => hstint
  | some op =>
    rw [hop] at hserving
    refine .tell (.idle _) (hserving.seq fun _ stint hstint => ?_)
    subst hstint
    exact .tell (.idle _) (by cases op <;> rfl)

theorem settles_roundAsking : Settles id isMini (roundAsking id : Telling K Tiding Unit) := by
  refine .of_leavesAlone (says_roundAsking (says_tickAsking rfl rfl stint_done_rotate)) ?_
  rw [mute_roundAsking]
  exact .seq leavesAlone_round fun _ _ => .pure trivial

end Obeys

end Rotation

end Steward
