import Steward.Proofs.Rotation.Stints
/-!
When a credential is asked for. A tick looks whether the cell is destroyed when it has the lock for
writing, and asks only if it is not; and as long as it has the lock nobody else destroys the cell.
So whoever is about to ask is so at a cell that is not destroyed, whatever the others do.
-/
namespace Steward

open Steward.Action Telling World

variable {K : Kit} {α β ρ : Type}

namespace World

variable {v w : World K} {id : CellId}

def Undestroyed (id : CellId) (w : World K) : Prop :=
  ∃ c, w.cell? id = some c ∧ c.standing.destroyed = false

theorem undestroyed_iff_face? :
    w.Undestroyed id ↔ ∃ face, w.face? id = some face ∧ face.standing.destroyed = false := by
  constructor
  · rintro ⟨c, hc, hstanding⟩
    exact ⟨c.face, face?_of_cell? hc, hstanding⟩
  · rintro ⟨face, hface, hstanding⟩
    obtain ⟨c, hc, rfl⟩ := exists_cell_of_face? hface
    exact ⟨c, hc, hstanding⟩

theorem Undestroyed.later (h : v.Undestroyed id) (hvw : Spares id v w) : w.Undestroyed id := by
  obtain ⟨face, hface, hstanding⟩ := undestroyed_iff_face?.1 h
  exact undestroyed_iff_face?.2 ⟨face, hvw face hface, hstanding⟩

end World

namespace Cell

variable {id : CellId}

def enduring (id : CellId) : Terms K where
  others v w := v.Undestroyed id → w.Undestroyed id
  own v w := v.Undestroyed id → w.Undestroyed id
  may := fun _ _ => True
  mayExit := False
  others_refl _ h := h
  others_trans huv hvw h := hvw (huv h)
  own_of_others h := h
  own_trans huv hvw h := hvw (huv h)

theorem lends_enduring : Lends (enduring (K := K) id) where
  note v line h := h.later (spares_of_eq (face?_note v line))
  report v notice h := h.later (spares_of_eq (face?_report v notice))
  mini _ _ _ := trivial
  putBack := by
    rintro v w cell c inner - - - ⟨d, hd, hstanding⟩
    by_cases hcell : cell = id
    · exact ⟨{ d with inner }, by rw [cell?_modifyCell, if_pos hcell, hd]; rfl, hstanding⟩
    · exact ⟨d, by rw [cell?_modifyCell, if_neg hcell, hd], hstanding⟩

end Cell

open Cell

namespace Rotation

inductive Hold where
  | away
  /-- It has the lock for writing. -/
  | held
  /-- It has the lock for writing, and knows that the cell is not destroyed. -/
  | sure

namespace Hold

def Knows (id : CellId) : Hold → World K → Prop
  | .sure, w => w.Undestroyed id
  | _, _ => True

inductive Sees (id : CellId) : Hold → World K → Hold → Prop
  | keeps {hold : Hold} {w : World K} (h : hold.Knows id w) : Sees id hold w hold
  | sees {w : World K} (h : w.Undestroyed id) : Sees id .held w .sure
  | forgets (w : World K) : Sees id .sure w .held

inductive Takes : Access → Hold → Prop
  | away (access : Access) : Takes access .away
  | held : Takes .write .held

end Hold

/-- From what a task has of the cell on, `p` asks for a credential only while it is sure that the
cell is not destroyed, and ends with what `post` says. -/
def Asks (id : CellId) : Telling K Tiding α → (α → Hold → Prop) → Hold → Prop
  | .done a, post, hold => post a hold
  | .call (.tell tiding) next, post, hold =>
    (tiding = .asks → hold = .sure) ∧ Asks id (next ()) post hold
  | .call (.effect (.update f)) next, post, hold => ∀ v : World K, hold.Knows id v →
    ∃ hold', hold.Sees id (f v) hold' ∧ Asks id (next v) post hold'
  | .call (.effect (.invoke _)) next, post, hold => ∀ v : World K, hold.Knows id v →
    Asks id (next v) post hold
  | .call (.effect (.acquire cell access)) next, post, hold =>
    (cell = id → hold = .away → ∃ hold', Hold.Takes access hold' ∧ Asks id (next ()) post hold') ∧
      (cell ≠ id → Asks id (next ()) post hold)
  | .call (.effect (.release cell)) next, post, hold =>
    (cell = id → Asks id (next ()) post .away) ∧ (cell ≠ id → Asks id (next ()) post hold)
  | .call (.effect (.rest _)) next, post, hold => Asks id (next ()) post hold
  | .call (.effect (.restUnlessCancelled _)) next, post, hold =>
    ∀ isCancelled, Asks id (next isCancelled) post hold
  | .call (.effect (.exit _)) _, _, _ => True

section Asks

variable {id : CellId} {hold : Hold} {post : β → Hold → Prop} {w : World K}

theorem Asks.seq {p : Telling K Tiding α} {f : α → Telling K Tiding β} {mid : α → Hold → Prop}
    (h : Asks id p mid hold) (hf : ∀ a hold', mid a hold' → Asks id (f a) post hold') :
    Asks id (p >>= f) post hold := by
  induction p generalizing hold with
  | done a => exact hf a hold h
  | call move next ih =>
    cases move with
    | tell tiding => exact ⟨h.1, ih () h.2⟩
    | effect e =>
      cases e with
      | update f => exact fun v hv => (h v hv).imp fun _ h => ⟨h.1, ih v h.2⟩
      | invoke what => exact fun v hv => ih v (h v hv)
      | acquire cell access =>
        exact ⟨fun hcell haway => (h.1 hcell haway).imp fun _ h => ⟨h.1, ih () h.2⟩,
          fun hcell => ih () (h.2 hcell)⟩
      | release cell =>
        exact ⟨fun hcell => ih () (h.1 hcell), fun hcell => ih () (h.2 hcell)⟩
      | rest millis => exact ih () h
      | restUnlessCancelled millis => exact fun b => ih b (h b)
      | exit code => trivial

theorem Asks.mono {p : Telling K Tiding β} {post' : β → Hold → Prop}
    (h : Asks id p post hold) (hpost : ∀ b hold', post b hold' → post' b hold') :
    Asks id p post' hold := by
  rw [← bind_pure p]
  exact h.seq hpost

theorem Asks.of_never_asks {p : Telling K Tiding α} (h : p.Says (· ≠ .asks)) :
    Asks id p (fun _ hold' => hold = .away → hold' = .away) hold := by
  induction p generalizing hold with
  | done a => exact fun haway => haway
  | call move next ih =>
    cases move with
    | tell tiding => exact ⟨fun hasks => absurd hasks h.1, ih () h.2⟩
    | effect e =>
      cases e with
      | update f =>
        intro v hknows
        cases hold with
        | away => exact ⟨_, .keeps trivial, ih v (h v)⟩
        | held => exact ⟨_, .keeps trivial, ih v (h v)⟩
        | sure => exact ⟨_, .forgets _, (ih v (h v)).mono fun _ _ _ => nofun⟩
      | invoke what => exact fun v _ => ih v (h v)
      | acquire cell access =>
        refine ⟨fun _ haway => ⟨.away, .away access, ?_⟩, fun _ => ih () (h ())⟩
        exact (ih () (h ())).mono fun _ _ hend _ => hend rfl
      | release cell =>
        refine ⟨fun _ => ?_, fun _ => ih () (h ())⟩
        exact (ih () (h ())).mono fun _ _ hend _ => hend rfl
      | rest millis => exact ih () (h ())
      | restUnlessCancelled millis => exact fun b => ih b (h b)
      | exit code => trivial

theorem Asks.of_meets {p : Action K α} {mid : Calls K → α → World K → Prop} (hholds : Holds id p)
    (h : Meets (enduring id) p mid w) :
    Asks id (silent p) (fun _ hold => hold = .sure) .sure := by
  induction p generalizing mid w with
  | done a => rfl
  | call effect next ih =>
    cases effect with
    | update f =>
      intro v hv
      obtain ⟨hown, hnext⟩ := h v fun _ => hv
      exact ⟨.sure, .keeps (hown hv), ih v (hholds v) hnext⟩
    | invoke what => exact fun v hv => ih v (hholds v) (h v fun _ => hv).2
    | acquire cell access => exact ⟨fun _ => nofun, fun hne => ih () (hholds hne) h⟩
    | release cell =>
      exact ⟨fun hcell => absurd hcell hholds.1, fun _ => ih () hholds.2 h⟩
    | rest millis => exact ih () hholds h
    | restUnlessCancelled millis => exact fun b => ih b (hholds b) (h b)
    | exit code => trivial

theorem asks_hook (hook : Hook α) :
    Asks id (silent (hook.interpret carry) : Telling K Tiding α) (fun _ hold => hold = .sure)
      .sure :=
  .of_meets (w := {}) (Holds.interpret holds_carry hook)
    (Quiet.interpret hook fun call _ _ => quiet_carry lends_enduring call)

theorem asks_attemptAsking (name : String) (policy : Policy) (retries attempts : Nat)
    (s : K.Service) :
    Asks id (attemptAsking name policy retries attempts s) (fun _ hold => hold = .sure) .sure := by
  unfold attemptAsking
  split
  · rfl
  · refine ⟨fun _ => rfl, (asks_hook (K.rotate s)).seq ?_⟩
    rintro ⟨s, answer⟩ _ rfl
    cases answer with
    | transient message =>
      cases retries with
      | zero => rfl
      | succ retries =>
        dsimp only
        split
        · rfl
        · have hreport (notice : Notice) :
              Asks id (silent (report notice) : Telling K Tiding Unit)
                (fun _ hold => hold = .sure) .sure :=
            .of_meets (w := {}) (holds_modify _) (quiet_report lends_enduring notice)
          refine (hreport _).seq fun _ hold hsure => ?_
          subst hsure
          exact asks_attemptAsking name policy retries _ _
    | _ => rfl

theorem asks_rotateHeldAsking :
    Asks id (rotateHeldAsking id : Telling K Tiding Result) (fun _ _ => True) .held := by
  have hend {p : Telling K Tiding Result} {hold : Hold} (hp : p.Says (· ≠ .asks)) :
      Asks id p (fun _ _ => True) hold := (Asks.of_never_asks hp).mono fun _ _ _ => trivial
  intro v _
  show ∃ hold', Hold.Sees id .held v hold' ∧
    Asks id (tickFoundAsking id (undestroyed? v id)) (fun _ _ => True) hold'
  cases hfound : undestroyed? v id with
  | none => exact ⟨.held, .keeps trivial, trivial⟩
  | some found =>
    obtain ⟨c, hc, -, hstanding⟩ := of_undestroyed? hfound
    refine ⟨.sure, .sees ⟨c, hc, hstanding⟩, ?_⟩
    refine (asks_hook (K.storeStatus found.2)).seq ?_
    rintro ⟨s, store?⟩ _ rfl
    cases store? with
    | none => exact hend (.silent fun _ => .pure _)
    | some store =>
      dsimp only
      split
      · exact hend (.silent fun _ => .silent fun _ => .pure _)
      · exact (asks_attemptAsking _ _ _ _ _).seq fun done _ _ =>
          hend (.silent fun _ => .silent fun _ => .pure _)

abbrev AsksDuly (id : CellId) (p : Telling K Tiding α) : Prop :=
  Asks id p (fun _ hold => hold = .away) .away

theorem asksDuly_tickAsking :
    AsksDuly id (tickAsking id : Telling K Tiding Result) := by
  refine ⟨fun _ _ => ⟨.held, .held, nofun, ?_⟩, fun hne => absurd rfl hne⟩
  refine asks_rotateHeldAsking.seq fun result hold _ => ⟨nofun, ?_⟩
  exact ⟨fun _ => rfl, fun hne => absurd rfl hne⟩

theorem AsksDuly.of_never_asks {p : Telling K Tiding α} (h : p.Says (· ≠ .asks)) : AsksDuly id p :=
  (Asks.of_never_asks h).mono fun _ _ hend => hend rfl

theorem AsksDuly.bind {p : Telling K Tiding α} {f : α → Telling K Tiding β} (h : AsksDuly id p)
    (hf : ∀ a, AsksDuly id (f a)) : AsksDuly id (p >>= f) := by
  refine Asks.seq h fun a hold haway => ?_
  subst haway
  exact hf a

theorem AsksDuly.silent {p : Action K α} {f : α → Telling K Tiding β}
    (hf : ∀ a, AsksDuly id (f a)) : AsksDuly id (silent p >>= f) :=
  .bind (.of_never_asks (says_silent p)) hf

theorem AsksDuly.interpret {ι : Type} {Answer : ι → Type}
    {carry : (i : ι) → Telling K Tiding (Answer i)} (h : ∀ i, AsksDuly id (carry i))
    (p : Program Answer α) : AsksDuly id (p.interpret carry) := by
  induction p with
  | done a => rfl
  | call i next ih => exact (h i).bind ih

theorem asksDuly_roundAsking : AsksDuly id (roundAsking id : Telling K Tiding Unit) := by
  refine .bind (.silent fun _ => .silent fun next => .silent fun _ => ?_) fun _ => rfl
  cases next with
  | none => rfl
  | some next =>
    refine .silent fun _ => .silent fun isCancelled => ?_
    split
    · exact .silent fun _ => rfl
    · refine AsksDuly.bind asksDuly_tickAsking fun result => ?_
      cases result with
      | cancelled => exact .silent fun _ => rfl
      | _ => rfl

theorem says_ofMark (p : Telling K Mark α) : (relay .ofMark p).Says (· ≠ Tiding.asks) :=
  .relay (says_of_forall fun _ => nofun)

theorem asksDuly_tellIf {f : β → Tiding} (hf : ∀ b, f b ≠ .asks) (b? : Option β) :
    AsksDuly id (tellIf (b?.map f) : Telling K Tiding Unit) := by
  cases b? with
  | none => rfl
  | some b => exact .of_never_asks ⟨hf b, trivial⟩

theorem asksDuly_tidings (r : Request K ρ) : AsksDuly id (r.tidings id) := by
  have hserving : AsksDuly id (r.serving id) := by
    cases r with
    | rotate => exact asksDuly_tickAsking
    | build token =>
      refine .silent fun started => .bind (.of_never_asks (says_ofMark _)) fun done => ?_
      refine .bind (.silent fun w => asksDuly_tellIf (by simp) _) fun _ => ?_
      split <;> rfl
    | destroy => exact .of_never_asks (says_ofMark _)
    | setStatus status => exact .of_never_asks (says_ofMark _)
    | call method body => exact .of_never_asks (says_ofMark _)
    | status => exact .of_never_asks (says_ofMark _)
    | look => exact .of_never_asks (says_ofMark _)
  refine .bind (asksDuly_tellIf (by simp) _) fun _ => hserving.bind fun _ => ?_
  exact .bind (asksDuly_tellIf (by simp) _) fun _ => rfl

end Asks

theorem returns_roundAsking {c : Subject} :
    Returns c .away (sift Tiding.mark? (roundAsking c.id : Telling K Tiding Unit)) := by
  rw [roundAsking, sift_bind, sift_roundWith, sift_tickAsking]
  have hreport (notice : Notice) :
      Returns c .away (silent (report notice) : Telling K Mark Unit) :=
    .modify fun v _ => ⟨spares_of_eq (face?_report v notice), rfl⟩
  have hrest (millis : Nat) :
      Returns c .away (silent (restUnlessCancelled millis) : Telling K Mark Bool) := fun _ => rfl
  refine .bind (.acquireRead fun s => .get fun v _ => .release (.last s) ?_) fun _ => rfl
  cases nextPeriod? v c.id with
  | none => rfl
  | some next =>
    refine (hreport _).bind fun _ => (hrest _).bind fun isCancelled => ?_
    split
    · exact (hreport _).bind fun _ => rfl
    · refine returns_rotateTelling.bind fun result => ?_
      cases result with
      | cancelled => exact (hreport _).bind fun _ => rfl
      | _ => rfl

section Crowds

variable {c : Subject} {s₀ : Standing} {crowd crowd' : Crowd K Tiding}
  {place : TaskId → Place K} {scene : Scene} {others : World K → World K → Prop}

theorem exists_inOrder_turn (h : InOrder c s₀ (crowd.sift Tiding.mark?) place scene)
    (hothers : ∀ u v, others u v → Spares c.id u v)
    (hturn : Crowd.Turn others c.id (roundAsking c.id) crowd crowd') :
    ∃ place' scene', InOrder c s₀ (crowd'.sift Tiding.mark?) place' scene' := by
  cases hturn with
  | step hstep =>
    rcases hstep.sift (f := Tiding.mark?) with hstep | heq
    · exact h.step hothers hstep
    · exact ⟨place, scene, heq ▸ h⟩
  | @timer task hlaunched hidle =>
    have haway : place task = .away := by
      have habides := h.abides task
      rwa [Crowd.sift_tasks, hidle] at habides
    rw [Crowd.sift_advance]
    refine ⟨place, scene, h.goOn ?_ rfl⟩
    rw [haway]
    exact returns_roundAsking

theorem spares_of_writer (h : InOrder c s₀ (crowd.sift Tiding.mark?) place scene) {t u : TaskId}
    (hwriter : (crowd.locks c.id).writer = some u) (hne : t ≠ u) {f : World K → World K}
    {next : World K → Telling K Tiding Unit}
    (ht : crowd.tasks t = .call (.effect (.update f)) next) :
    Spares c.id crowd.world (f crowd.world) := by
  have habides := h.abides t
  rw [h.eq_away_of_isWriting ((h.accounts.writer u).1 hwriter) hne, Crowd.sift_tasks, ht] at habides
  exact (habides _ trivial).1

structure Restrained (id : CellId) (crowd : Crowd K Tiding) (hold : TaskId → Hold) : Prop where
  asks : ∀ t, Asks id (crowd.tasks t) (fun _ hold => hold = .away) (hold t)
  writer : ∀ t, hold t ≠ .away → (crowd.locks id).writer = some t
  knows : ∀ t, (hold t).Knows id crowd.world

namespace Restrained

variable {id : CellId} {hold : TaskId → Hold} {t : TaskId} {told : List Tiding}
  {p : Telling K Tiding Unit} {w : World K} {locks : CellId → Lock} {here : Hold}

theorem advance (h : Restrained id crowd hold)
    (hp : Asks id p (fun _ hold => hold = .away) here)
    (hwriter : here ≠ .away → (locks id).writer = some t) (hknows : here.Knows id w)
    (hrest : ∀ u, u ≠ t → (hold u ≠ .away → (locks id).writer = some u) ∧ (hold u).Knows id w) :
    Restrained id (crowd.advance t told p w locks) (Function.update hold t here) where
  asks u := by
    obtain rfl | hu := eq_or_ne u t
    · simpa only [Crowd.advance, Function.update_self] using hp
    · simpa only [Crowd.advance, Function.update_of_ne hu] using h.asks u
  writer u := by
    obtain rfl | hu := eq_or_ne u t
    · rwa [Function.update_self]
    · rw [Function.update_of_ne hu]
      exact (hrest u hu).1
  knows u := by
    show Hold.Knows id _ w
    obtain rfl | hu := eq_or_ne u t
    · rwa [Function.update_self]
    · rw [Function.update_of_ne hu]
      exact (hrest u hu).2

theorem goOn (h : Restrained id crowd hold)
    (hp : Asks id p (fun _ hold => hold = .away) (hold t)) (hlocks : locks id = crowd.locks id) :
    Restrained id (crowd.advance t told p crowd.world locks) hold := by
  have hadvance : Restrained id (crowd.advance t told p crowd.world locks)
      (Function.update hold t (hold t)) :=
    h.advance hp (by rw [hlocks]; exact h.writer t) (h.knows t)
      fun u _ => ⟨by rw [hlocks]; exact h.writer u, h.knows u⟩
  rwa [Function.update_eq_self] at hadvance

theorem eq_away_of_allows (h : Restrained id crowd hold) {access : Access}
    (hallows : (crowd.locks id).allows access = true) (u : TaskId) : hold u = .away := by
  by_contra hu
  have hnone := Lock.isNone_of_allows hallows
  rw [h.writer u hu] at hnone
  cases hnone

theorem step (h : Restrained c.id crowd hold)
    (horder : InOrder c s₀ (crowd.sift Tiding.mark?) place scene)
    (hothers : ∀ u v, others u v → Spares c.id u v) (hstep : Crowd.Step others crowd crowd') :
    ∃ hold', Restrained c.id crowd' hold' := by
  cases hstep with
  | others hw =>
    refine ⟨hold, h.asks, h.writer, fun t => ?_⟩
    have hknows := h.knows t
    cases ht : hold t with
    | sure =>
      rw [ht] at hknows
      exact hknows.later (hothers _ _ hw)
    | _ => trivial
  | task t hmoves =>
    have hasks := h.asks t
    generalize ht : crowd.tasks t = p at hmoves hasks
    cases hmoves with
    | @update f next =>
      obtain ⟨here, hsees, hnext⟩ := hasks _ (h.knows t)
      have hhere : here ≠ .away → hold t ≠ .away := by
        generalize hold t = before at hsees
        cases hsees with
        | keeps => exact id
        | sees => exact fun _ => nofun
        | forgets => exact fun _ => nofun
      have hknows : here.Knows c.id (f crowd.world) := by
        generalize hold t = before at hsees
        cases hsees with
        | keeps hknows => exact hknows
        | sees hsure => exact hsure
        | forgets => trivial
      refine ⟨_, h.advance hnext (fun haway => h.writer t (hhere haway)) hknows fun u hu =>
        ⟨h.writer u, ?_⟩⟩
      have hknowsu := h.knows u
      cases hholdu : hold u with
      | sure =>
        rw [hholdu] at hknowsu
        have hwriter := h.writer u (by rw [hholdu]; exact nofun)
        exact hknowsu.later (spares_of_writer horder hwriter (Ne.symm hu) ht)
      | _ => trivial
    | invoke => exact ⟨hold, h.goOn (hasks _ (h.knows t)) rfl⟩
    | @acquire cell access next w locks hallows =>
      by_cases hcell : cell = c.id
      · subst hcell
        have haway := h.eq_away_of_allows hallows
        obtain ⟨here, htakes, hnext⟩ := hasks.1 rfl (haway t)
        refine ⟨_, h.advance hnext (fun hhere => ?_) ?_ fun u _ => ?_⟩
        · cases htakes with
          | away => exact absurd rfl hhere
          | held => rw [Function.update_self]; rfl
        · cases htakes <;> trivial
        · rw [haway u]
          exact ⟨fun hne => absurd rfl hne, trivial⟩
      · exact ⟨hold, h.goOn (hasks.2 hcell) (Function.update_of_ne (Ne.symm hcell) ..)⟩
    | @release cell next w locks =>
      by_cases hcell : cell = c.id
      · subst hcell
        refine ⟨_, h.advance (hasks.1 rfl) (fun hne => absurd rfl hne) trivial fun u hu =>
          ⟨fun hholdu => ?_, h.knows u⟩⟩
        have hwriter := h.writer u hholdu
        have hleave : (crowd.locks c.id).writer ≠ some t := fun htwrites =>
          hu (Option.some.inj (hwriter.symm.trans htwrites))
        rw [Function.update_self, Lock.leave, if_neg hleave]
        exact hwriter
      · exact ⟨hold, h.goOn (hasks.2 hcell) (Function.update_of_ne (Ne.symm hcell) ..)⟩
    | rest => exact ⟨hold, h.goOn hasks rfl⟩
    | restUnlessCancelled isCancelled => exact ⟨hold, h.goOn (hasks isCancelled) rfl⟩
    | tell => exact ⟨hold, h.goOn hasks.2 rfl⟩

theorem turn (h : Restrained c.id crowd hold)
    (horder : InOrder c s₀ (crowd.sift Tiding.mark?) place scene)
    (hothers : ∀ u v, others u v → Spares c.id u v)
    (hturn : Crowd.Turn others c.id (roundAsking c.id) crowd crowd') :
    ∃ hold', Restrained c.id crowd' hold' := by
  cases hturn with
  | step hstep => exact h.step horder hothers hstep
  | @timer task hlaunched hidle =>
    have haway : hold task = .away := by
      have hasks := h.asks task
      rwa [hidle] at hasks
    refine ⟨hold, h.goOn ?_ rfl⟩
    rw [haway]
    exact asksDuly_roundAsking

end Restrained

variable {id : CellId} {d : Cell K} {w : World K} {locks : CellId → Lock}

theorem inOrder_conveneTelling (hd : w.cell? id = some d) (hfree : locks id = .free)
    (tasks : Requests K ρ) :
    InOrder ⟨id, d.name, d.isMini⟩ d.standing
      ((conveneTelling id tasks w locks).sift Tiding.mark?) (fun _ => .away)
      (.calm d.standing ∅) where
  abides t := by
    rw [Crowd.sift_tasks, conveneTelling]
    dsimp only
    split
    · rw [sift_interpret]
      simp only [sift_tidings]
      exact Returns.interpret returns_telling (tasks t)
    · rfl
  fits t := Finset.notMem_empty t
  shows := face?_of_cell? hd
  accounts := by
    show (locks id).Accounts _
    rw [hfree]
    exact .free
  leads := .nil _

theorem restrained_conveneTelling (tasks : Requests K ρ) :
    Restrained id (conveneTelling id tasks w locks) fun _ => .away where
  asks t := by
    rw [conveneTelling]
    dsimp only
    split
    · exact AsksDuly.interpret asksDuly_tidings (tasks t)
    · rfl
  writer _ hne := absurd rfl hne
  knows _ := trivial

theorem undestroyed_of_asks (hd : w.cell? id = some d) (hfree : locks id = .free)
    (hothers : ∀ u v, others u v → Spares id u v) (tasks : Requests K ρ)
    (run : Crowd.Revolves others id (roundAsking id) (conveneTelling id tasks w locks) crowd)
    {t : TaskId} {next : Unit → Telling K Tiding Unit}
    (ht : crowd.tasks t = .call (.tell .asks) next) : crowd.world.Undestroyed id := by
  let P (crowd : Crowd K Tiding) :=
    (∃ place scene, InOrder ⟨id, d.name, d.isMini⟩ d.standing (crowd.sift Tiding.mark?) place
      scene) ∧ ∃ hold, Restrained id crowd hold
  have hcrowd : P crowd := by
    refine run.induct ⟨⟨_, _, inOrder_conveneTelling hd hfree tasks⟩, _,
      restrained_conveneTelling tasks⟩ ?_
    rintro c c' ⟨⟨place, scene, horder⟩, hold, h⟩ turn
    exact ⟨exists_inOrder_turn horder hothers turn, h.turn horder hothers turn⟩
  obtain ⟨-, hold, h⟩ := hcrowd
  have hasks := h.asks t
  rw [ht] at hasks
  have hknows := h.knows t
  rwa [hasks.1 rfl] at hknows

end Crowds

end Rotation

end Steward
