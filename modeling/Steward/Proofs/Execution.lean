import Steward.Core.Action
/-!
How a task works among others. Between two effects of a task the others may change the world, so
what a task does is judged by the terms that both sides keep to: what the others may do meanwhile,
and what each change of the task itself is.

Waiting is nothing but leaving time to the others: a lock is had and a rest is over in the end.
A run that waits for ever is a beginning of one that does not, so what holds of all beginnings of
runs here holds of it too.
-/
namespace Steward.Action

variable {K : Kit} {α β : Type}

abbrev Calls (K : Kit) := List (Invocation × World K)

/-- A task that has `p` left to do comes, among others that change the world as `others` says, from
one world to another with `q` left to do, and makes calls on the way. -/
inductive Runs (others : World K → World K → Prop) {α : Type} :
    Action K α → World K → Calls K → Action K α → World K → Prop
  | here (p : Action K α) (w : World K) : Runs others p w [] p w
  | other {p q : Action K α} {u v w : World K} {calls : Calls K} (h : others u v)
      (rest : Runs others p v calls q w) : Runs others p u calls q w
  | update {f : World K → World K} {next : World K → Action K α} {q : Action K α}
      {v w : World K} {calls : Calls K} (rest : Runs others (next v) (f v) calls q w) :
      Runs others (.call (.update f) next) v calls q w
  | invoke {what : Invocation} {next : World K → Action K α} {q : Action K α}
      {v w : World K} {calls : Calls K} (rest : Runs others (next v) v calls q w) :
      Runs others (.call (.invoke what) next) v ((what, v) :: calls) q w
  | acquire {cell : CellId} {access : Access} {next : Unit → Action K α} {q : Action K α}
      {v w : World K} {calls : Calls K} (rest : Runs others (next ()) v calls q w) :
      Runs others (.call (.acquire cell access) next) v calls q w
  | release {cell : CellId} {next : Unit → Action K α} {q : Action K α}
      {v w : World K} {calls : Calls K} (rest : Runs others (next ()) v calls q w) :
      Runs others (.call (.release cell) next) v calls q w
  | rest {millis : Nat} {next : Unit → Action K α} {q : Action K α}
      {v w : World K} {calls : Calls K} (rest : Runs others (next ()) v calls q w) :
      Runs others (.call (.rest millis) next) v calls q w
  | restUnlessCancelled {millis : Nat} {next : Bool → Action K α} {q : Action K α}
      {v w : World K} {calls : Calls K} (isCancelled : Bool)
      (rest : Runs others (next isCancelled) v calls q w) :
      Runs others (.call (.restUnlessCancelled millis) next) v calls q w

/-- The terms on which a task works. What the others do is no more than what the task itself may
do, so `own` also tells how the world moves over a whole run. -/
structure Terms (K : Kit) where
  /-- How the world may be changed between two effects of the task. -/
  others : World K → World K → Prop
  /-- What each change of the task itself is. -/
  own : World K → World K → Prop
  /-- The calls that the task may make. -/
  may : Invocation → World K → Prop
  /-- Whether the task may end the process. -/
  mayExit : Prop
  others_refl : ∀ w, others w w
  others_trans : ∀ {u v w}, others u v → others v w → others u w
  own_of_others : ∀ {v w}, others v w → own v w
  own_trans : ∀ {u v w}, own u v → own v w → own u w

/-- From the world `w` on, and as long as the others keep to the terms, `p` keeps to them too; and
if it ends, its calls, its answer and the world are as `post` says. -/
def Meets (T : Terms K) : Action K α → (Calls K → α → World K → Prop) → World K → Prop
  | .done a, post, w => ∀ v, T.others w v → post [] a v
  | .call (.update f) next, post, w =>
    ∀ v, T.others w v → T.own v (f v) ∧ Meets T (next v) post (f v)
  | .call (.invoke what) next, post, w =>
    ∀ v, T.others w v →
      T.may what v ∧ Meets T (next v) (fun calls => post ((what, v) :: calls)) v
  | .call (.acquire _ _) next, post, w => Meets T (next ()) post w
  | .call (.release _) next, post, w => Meets T (next ()) post w
  | .call (.rest _) next, post, w => Meets T (next ()) post w
  | .call (.restUnlessCancelled _) next, post, w => ∀ isCancelled, Meets T (next isCancelled) post w
  | .call (.exit _) _, _, _ => T.mayExit

variable {T : Terms K} {p : Action K α} {v w : World K} {post post' : Calls K → α → World K → Prop}

theorem Meets.later (h : Meets T p post w) (hv : T.others w v) : Meets T p post v := by
  induction p generalizing post w v with
  | done a => exact fun u hu => h u (T.others_trans hv hu)
  | call effect next ih =>
    cases effect with
    | update f => exact fun u hu => h u (T.others_trans hv hu)
    | invoke what => exact fun u hu => h u (T.others_trans hv hu)
    | acquire cell access => exact ih () h hv
    | release cell => exact ih () h hv
    | rest millis => exact ih () h hv
    | restUnlessCancelled millis => exact fun b => ih b (h b) hv
    | exit code => exact h

theorem Meets.mono (h : Meets T p post w) (hpost : ∀ calls a v, post calls a v → post' calls a v) :
    Meets T p post' w := by
  induction p generalizing post post' w with
  | done a => exact fun u hu => hpost _ _ _ (h u hu)
  | call effect next ih =>
    cases effect with
    | update f => exact fun u hu => ⟨(h u hu).1, ih _ (h u hu).2 hpost⟩
    | invoke what => exact fun u hu => ⟨(h u hu).1, ih _ (h u hu).2 fun _ => hpost _⟩
    | acquire cell access => exact ih () h hpost
    | release cell => exact ih () h hpost
    | rest millis => exact ih () h hpost
    | restUnlessCancelled millis => exact fun b => ih b (h b) hpost
    | exit code => exact h

theorem Meets.all {ι : Sort _} {each : ι → Calls K → α → World K → Prop} (h : Meets T p post w)
    (hall : ∀ i, Meets T p (each i) w) :
    Meets T p (fun calls a v => post calls a v ∧ ∀ i, each i calls a v) w := by
  induction p generalizing post each w with
  | done a => exact fun u hu => ⟨h u hu, fun i => hall i u hu⟩
  | call effect next ih =>
    cases effect with
    | update f => exact fun u hu => ⟨(h u hu).1, ih _ (h u hu).2 fun i => (hall i u hu).2⟩
    | invoke what => exact fun u hu => ⟨(h u hu).1, ih _ (h u hu).2 fun i => (hall i u hu).2⟩
    | acquire cell access => exact ih () h hall
    | release cell => exact ih () h hall
    | rest millis => exact ih () h hall
    | restUnlessCancelled millis => exact fun b => ih b (h b) fun i => hall i b
    | exit code => exact h

theorem Meets.bind {f : α → Action K β} {post : Calls K → β → World K → Prop}
    (h : Meets T p (fun before a v => Meets T (f a) (fun calls => post (before ++ calls)) v) w) :
    Meets T (p.bind f) post w := by
  induction p generalizing post w with
  | done a => exact h w (T.others_refl w)
  | call effect next ih =>
    cases effect with
    | update g => exact fun u hu => ⟨(h u hu).1, ih _ (h u hu).2⟩
    | invoke what => exact fun u hu => ⟨(h u hu).1, ih _ (h u hu).2⟩
    | acquire cell access => exact ih () h
    | release cell => exact ih () h
    | rest millis => exact ih () h
    | restUnlessCancelled millis => exact fun b => ih b (h b)
    | exit code => exact h

theorem Meets.own (h : Meets T p post w) :
    Meets T p (fun calls a v => T.own w v ∧ post calls a v) w := by
  suffices hfrom : ∀ u, T.own u w → Meets T p (fun calls a v => T.own u v ∧ post calls a v) w from
    hfrom w (T.own_of_others (T.others_refl w))
  intro u hu
  induction p generalizing post w with
  | done a => exact fun v hv => ⟨T.own_trans hu (T.own_of_others hv), h v hv⟩
  | call effect next ih =>
    cases effect with
    | update f =>
      intro v hv
      obtain ⟨hown, hnext⟩ := h v hv
      have huv : T.own u v := T.own_trans hu (T.own_of_others hv)
      exact ⟨hown, ih _ hnext (T.own_trans huv hown)⟩
    | invoke what =>
      exact fun v hv => ⟨(h v hv).1, ih _ (h v hv).2 (T.own_trans hu (T.own_of_others hv))⟩
    | acquire cell access => exact ih () h hu
    | release cell => exact ih () h hu
    | rest millis => exact ih () h hu
    | restUnlessCancelled millis => exact fun b => ih b (h b) hu
    | exit code => exact h

/-- A program that keeps to some terms keeps to looser ones, as long as the others do no more. -/
theorem Meets.relax {T' : Terms K} (h : Meets T p post w)
    (others : ∀ u v, T'.others u v → T.others u v) (own : ∀ u v, T.own u v → T'.own u v)
    (may : ∀ what v, T.may what v → T'.may what v) (mayExit : T.mayExit → T'.mayExit) :
    Meets T' p post w := by
  induction p generalizing post w with
  | done a => exact fun v hv => h v (others w v hv)
  | call effect next ih =>
    cases effect with
    | update f =>
      intro v hv
      obtain ⟨hown, hnext⟩ := h v (others w v hv)
      exact ⟨own _ _ hown, ih _ hnext⟩
    | invoke what =>
      intro v hv
      obtain ⟨hmay, hnext⟩ := h v (others w v hv)
      exact ⟨may _ _ hmay, ih _ hnext⟩
    | acquire cell access => exact ih () h
    | release cell => exact ih () h
    | rest millis => exact ih () h
    | restUnlessCancelled millis => exact fun b => ih b (h b)
    | exit code => exact mayExit h

section Effects

variable {f : World K → α} {g : α → Action K β} {next : Unit → Action K β}
  {post : Calls K → β → World K → Prop}

theorem Meets.pure {a : α} {post : Calls K → α → World K → Prop}
    (h : ∀ v, T.others w v → post [] a v) : Meets T (pure a) post w := h

theorem Meets.get (h : ∀ v, T.others w v → Meets T (g (f v)) post v) :
    Meets T (get f >>= g) post w :=
  fun v hv => ⟨T.own_of_others (T.others_refl v), h v hv⟩

theorem Meets.modify {f : World K → World K}
    (h : ∀ v, T.others w v → T.own v (f v) ∧ Meets T (next ()) post (f v)) :
    Meets T (modify f >>= next) post w := h

theorem Meets.getModify {change : World K → World K}
    (h : ∀ v, T.others w v → T.own v (change v) ∧ Meets T (g (f v)) post (change v)) :
    Meets T (getModify f change >>= g) post w := h

theorem Meets.invoke {what : Invocation}
    (h : ∀ v, T.others w v →
      T.may what v ∧ Meets T (g (f v)) (fun calls => post ((what, v) :: calls)) v) :
    Meets T (invoke what f >>= g) post w := h

theorem Meets.acquire {cell : CellId} {access : Access} (h : Meets T (next ()) post w) :
    Meets T (acquire cell access >>= next) post w := h

theorem Meets.release {cell : CellId} (h : Meets T (next ()) post w) :
    Meets T (release cell >>= next) post w := h

theorem Meets.restUnlessCancelled {millis : Nat} {g : Bool → Action K β}
    (h : ∀ isCancelled, Meets T (g isCancelled) post w) :
    Meets T (restUnlessCancelled millis >>= g) post w := h

theorem Meets.report {notice : Notice}
    (h : ∀ v, T.others w v → T.own v (v.report notice) ∧ Meets T (next ()) post (v.report notice)) :
    Meets T (report notice >>= next) post w := h

theorem Meets.ite {c : Prop} [Decidable c] {q : Action K α} (hp : c → Meets T p post' w)
    (hq : ¬ c → Meets T q post' w) : Meets T (if c then p else q) post' w := by
  split
  · exact hp ‹_›
  · exact hq ‹_›

theorem Meets.of_bind_pure (h : Meets T (p >>= Pure.pure) post' w) : Meets T p post' w := by
  rwa [bind_pure] at h

theorem Meets.seq {mid : Calls K → α → World K → Prop} (h : Meets T p mid w)
    (hnext : ∀ before a v, T.own w v → mid before a v →
      Meets T (g a) (fun calls => post (before ++ calls)) v) : Meets T (p >>= g) post w :=
  Meets.bind (h.own.mono fun before a v hv => hnext before a v hv.1 hv.2)

end Effects

/-- Over a run of a program that keeps to the terms, they are kept, and what is left keeps to them
again. -/
theorem Runs.meets {q : Action K α} {calls : Calls K} (run : Runs T.others p v calls q w)
    (h : Meets T p post v) :
    T.own v w ∧ (∀ call ∈ calls, T.may call.1 call.2) ∧
      Meets T q (fun later => post (calls ++ later)) w := by
  induction run generalizing post with
  | here p w => exact ⟨T.own_of_others (T.others_refl w), by simp, h⟩
  | other hv _ ih =>
    obtain ⟨hown, hmay, hleft⟩ := ih (h.later hv)
    exact ⟨T.own_trans (T.own_of_others hv) hown, hmay, hleft⟩
  | @update f next q v w calls _ ih =>
    obtain ⟨hstep, hnext⟩ := h v (T.others_refl v)
    obtain ⟨hown, hmay, hleft⟩ := ih hnext
    exact ⟨T.own_trans hstep hown, hmay, hleft⟩
  | @invoke what next q v w calls _ ih =>
    obtain ⟨hcall, hnext⟩ := h v (T.others_refl v)
    obtain ⟨hown, hmay, hleft⟩ := ih hnext
    exact ⟨hown, List.forall_mem_cons.2 ⟨hcall, hmay⟩, hleft⟩
  | acquire _ ih => exact ih h
  | release _ ih => exact ih h
  | rest _ ih => exact ih h
  | restUnlessCancelled b _ ih => exact ih (h b)

theorem Runs.ends {a : α} {calls : Calls K} (run : Runs T.others p v calls (.done a) w)
    (h : Meets T p post v) : post calls a w := by
  have hleft := (run.meets h).2.2 w (T.others_refl w)
  simpa using hleft

theorem Runs.exits {code : UInt8} {next : Empty → Action K α} {calls : Calls K}
    (run : Runs T.others p v calls (.call (.exit code) next) w) (h : Meets T p post v) :
    T.mayExit := (run.meets h).2.2

theorem Runs.weaken {others others' : World K → World K → Prop} {q : Action K α}
    {calls : Calls K} (run : Runs others p v calls q w)
    (h : ∀ v w, others v w → others' v w) : Runs others' p v calls q w := by
  induction run with
  | here p w => exact .here p w
  | other hv _ ih => exact .other (h _ _ hv) ih
  | update _ ih => exact .update ih
  | invoke _ ih => exact .invoke ih
  | acquire _ ih => exact .acquire ih
  | release _ ih => exact .release ih
  | rest _ ih => exact .rest ih
  | restUnlessCancelled b _ ih => exact .restUnlessCancelled b ih

theorem Runs.trans {others : World K → World K → Prop} {q r : Action K α} {u : World K}
    {before later : Calls K} (first : Runs others p u before q v) (last : Runs others q v later r w) :
    Runs others p u (before ++ later) r w := by
  induction first with
  | here p w => exact last
  | other hv _ ih => exact .other hv (ih last)
  | update _ ih => exact .update (ih last)
  | invoke _ ih => exact .invoke (ih last)
  | acquire _ ih => exact .acquire (ih last)
  | release _ ih => exact .release (ih last)
  | rest _ ih => exact .rest (ih last)
  | restUnlessCancelled b _ ih => exact .restUnlessCancelled b (ih last)

/-- A run to the end of a program that begins with a change comes to a moment of that change. -/
theorem Runs.of_update {others : World K → World K → Prop} {f : World K → World K}
    {next : World K → Action K α} {a : α} {calls : Calls K}
    (run : Runs others (.call (.update f) next) v calls (.done a) w) :
    ∃ u, Runs others (.call (.update f) next) v [] (.call (.update f) next) u ∧
      Runs others (next u) (f u) calls (.done a) w := by
  generalize hp : (.call (.update f) next : Action K α) = p at run
  generalize hq : Program.done a = q at run
  induction run with
  | here p w => cases hp.trans hq.symm
  | other h _ ih =>
    obtain ⟨u, hu, hrest⟩ := ih hp hq
    subst hp
    exact ⟨u, .other h hu, hrest⟩
  | @update _ _ _ v w calls rest =>
    cases hp
    exact ⟨v, .here _ v, rest⟩
  | _ => cases hp

theorem Runs.of_acquire {others : World K → World K → Prop} {cell : CellId} {access : Access}
    {next : Unit → Action K α} {a : α} {calls : Calls K}
    (run : Runs others (.call (.acquire cell access) next) v calls (.done a) w) :
    Runs others (next ()) v calls (.done a) w := by
  generalize hp : (.call (.acquire cell access) next : Action K α) = p at run
  generalize hq : Program.done a = q at run
  induction run with
  | here p w => cases hp.trans hq.symm
  | other h _ ih => exact .other h (ih hp hq)
  | acquire rest =>
    cases hp
    exact rest
  | _ => cases hp

theorem Runs.of_release {others : World K → World K → Prop} {cell : CellId}
    {next : Unit → Action K α} {a : α} {calls : Calls K}
    (run : Runs others (.call (.release cell) next) v calls (.done a) w) :
    Runs others (next ()) v calls (.done a) w := by
  generalize hp : (.call (.release cell) next : Action K α) = p at run
  generalize hq : Program.done a = q at run
  induction run with
  | here p w => cases hp.trans hq.symm
  | other h _ ih => exact .other h (ih hp hq)
  | release rest =>
    cases hp
    exact rest
  | _ => cases hp

theorem Runs.of_done {others : World K → World K → Prop} {a : α} {q : Action K α} {calls : Calls K}
    (run : Runs others (.done a) v calls q w) : calls = [] ∧ q = .done a := by
  generalize hp : Program.done a = p at run
  induction run with
  | here p w => exact ⟨rfl, rfl⟩
  | other _ _ ih => exact ih hp
  | _ => cases hp

theorem Runs.others_of_done {a : α} {q : Action K α} {calls : Calls K}
    (run : Runs T.others (.done a) v calls q w) : T.others v w := by
  generalize hp : Program.done a = p at run
  induction run with
  | here p w => exact T.others_refl w
  | other h _ ih => exact T.others_trans h (ih hp)
  | _ => cases hp

theorem Runs.split {others : World K → World K → Prop} {f : α → Action K β} {b : β}
    {calls : Calls K} (run : Runs others (p.bind f) v calls (.done b) w) :
    ∃ before a u later, calls = before ++ later ∧ Runs others p v before (.done a) u ∧
      Runs others (f a) u later (.done b) w := by
  induction p generalizing v calls with
  | done a => exact ⟨[], a, v, calls, rfl, .here _ _, run⟩
  | call effect next ih =>
    -- what others do first they do before the first program
    generalize hp : (Program.call effect next).bind f = p at run
    generalize hq : Program.done b = q at run
    induction run with
    | here p w => cases hp.trans hq.symm
    | other h _ ih' =>
      obtain ⟨before, a, u, later, rfl, hbefore, hlater⟩ := ih' ih hp hq
      exact ⟨before, a, u, later, rfl, .other h hbefore, hlater⟩
    | update rest =>
      cases hp
      subst hq
      obtain ⟨before, a, u, later, rfl, hbefore, hlater⟩ := ih _ rest
      exact ⟨before, a, u, later, rfl, .update hbefore, hlater⟩
    | invoke rest =>
      cases hp
      subst hq
      obtain ⟨before, a, u, later, rfl, hbefore, hlater⟩ := ih _ rest
      exact ⟨_ :: before, a, u, later, rfl, .invoke hbefore, hlater⟩
    | acquire rest =>
      cases hp
      subst hq
      obtain ⟨before, a, u, later, rfl, hbefore, hlater⟩ := ih () rest
      exact ⟨before, a, u, later, rfl, .acquire hbefore, hlater⟩
    | release rest =>
      cases hp
      subst hq
      obtain ⟨before, a, u, later, rfl, hbefore, hlater⟩ := ih () rest
      exact ⟨before, a, u, later, rfl, .release hbefore, hlater⟩
    | rest rest =>
      cases hp
      subst hq
      obtain ⟨before, a, u, later, rfl, hbefore, hlater⟩ := ih () rest
      exact ⟨before, a, u, later, rfl, .rest hbefore, hlater⟩
    | restUnlessCancelled isCancelled rest =>
      cases hp
      subst hq
      obtain ⟨before, a, u, later, rfl, hbefore, hlater⟩ := ih _ rest
      exact ⟨before, a, u, later, rfl, .restUnlessCancelled isCancelled hbefore, hlater⟩

theorem Runs.bind {others : World K → World K → Prop} {q : Action K α} {calls : Calls K}
    (run : Runs others p v calls q w) (f : α → Action K β) :
    Runs others (p.bind f) v calls (q.bind f) w := by
  induction run with
  | here p w => exact .here _ _
  | other h _ ih => exact .other h ih
  | update _ ih => exact .update ih
  | invoke _ ih => exact .invoke ih
  | acquire _ ih => exact .acquire ih
  | release _ ih => exact .release ih
  | rest _ ih => exact .rest ih
  | restUnlessCancelled b _ ih => exact .restUnlessCancelled b ih

theorem Runs.of_map {others : World K → World K → Prop} {f : α → β} {b : β} {calls : Calls K}
    (run : Runs others (f <$> p) v calls (.done b) w) :
    ∃ a, f a = b ∧ Runs others p v calls (.done a) w := by
  generalize hp : f <$> p = p' at run
  generalize hq : Program.done b = q at run
  induction run generalizing p with
  | here p' w =>
    cases p with
    | done a => exact ⟨a, Program.done.inj (hp.trans hq.symm), .here _ _⟩
    | call effect next => cases hp.trans hq.symm
  | other h _ ih =>
    obtain ⟨a, ha, run⟩ := ih hp hq
    exact ⟨a, ha, .other h run⟩
  | _ =>
    cases p with
    | done a => cases hp
    | call effect next =>
      cases hp
      rename_i ih
      obtain ⟨a, ha, run⟩ := ih rfl hq
      exact ⟨a, ha, by
        first
        | exact .update run
        | exact .invoke run
        | exact .acquire run
        | exact .release run
        | exact .rest run
        | exact .restUnlessCancelled _ run⟩
/-- How a program runs that is left alone and whose timer is not cancelled; nothing if it ends the
process. -/
def alone : Action K α → World K → Option (Calls K × α × World K)
  | .done a, w => some ([], a, w)
  | .call (.update f) next, w => alone (next w) (f w)
  | .call (.invoke what) next, w => (alone (next w) w).map fun run => ((what, w) :: run.1, run.2)
  | .call (.acquire _ _) next, w => alone (next ()) w
  | .call (.release _) next, w => alone (next ()) w
  | .call (.rest _) next, w => alone (next ()) w
  | .call (.restUnlessCancelled _) next, w => alone (next false) w
  | .call (.exit _) _, _ => none

theorem runs_alone {others : World K → World K → Prop} {a : α} {calls : Calls K}
    (h : alone p v = some (calls, a, w)) : Runs others p v calls (.done a) w := by
  induction p generalizing v calls with
  | done b =>
    obtain ⟨rfl, rfl, rfl⟩ : [] = calls ∧ b = a ∧ v = w := by simpa [alone] using h
    exact .here _ _
  | call effect next ih =>
    cases effect with
    | update f => exact .update (ih _ h)
    | invoke what =>
      obtain ⟨⟨later, b, u⟩, hlater, hrun⟩ := Option.map_eq_some_iff.1 h
      obtain ⟨rfl, rfl, rfl⟩ : (what, v) :: later = calls ∧ b = a ∧ u = w := by simpa using hrun
      exact .invoke (ih _ hlater)
    | acquire cell access => exact .acquire (ih () h)
    | release cell => exact .release (ih () h)
    | rest millis => exact .rest (ih () h)
    | restUnlessCancelled millis => exact .restUnlessCancelled false (ih false h)
    | exit code => cases h

theorem exists_runs_to_end (others : World K → World K → Prop) (p : Action K α) (v : World K) :
    ∃ calls q w, Runs others p v calls q w ∧
      ((∃ a, q = .done a) ∨ ∃ code next, q = .call (.exit code) next) := by
  induction p generalizing v with
  | done a => exact ⟨[], _, v, .here _ v, .inl ⟨a, rfl⟩⟩
  | call effect next ih =>
    cases effect with
    | update f =>
      obtain ⟨calls, q, w, run, hq⟩ := ih v (f v)
      exact ⟨calls, q, w, .update run, hq⟩
    | invoke what =>
      obtain ⟨calls, q, w, run, hq⟩ := ih v v
      exact ⟨_, q, w, .invoke run, hq⟩
    | acquire cell access =>
      obtain ⟨calls, q, w, run, hq⟩ := ih () v
      exact ⟨calls, q, w, .acquire run, hq⟩
    | release cell =>
      obtain ⟨calls, q, w, run, hq⟩ := ih () v
      exact ⟨calls, q, w, .release run, hq⟩
    | rest millis =>
      obtain ⟨calls, q, w, run, hq⟩ := ih () v
      exact ⟨calls, q, w, .rest run, hq⟩
    | restUnlessCancelled millis =>
      obtain ⟨calls, q, w, run, hq⟩ := ih false v
      exact ⟨calls, q, w, .restUnlessCancelled false run, hq⟩
    | exit code => exact ⟨[], _, v, .here _ v, .inr ⟨code, next, rfl⟩⟩

/-- However `p` runs among others from `w` on, it can come to an end, and no end is other than as
`post` says. -/
def Yields (others : World K → World K → Prop) (p : Action K α) (w : World K)
    (post : Calls K → α → World K → Prop) : Prop :=
  ∀ calls q v, Runs others p w calls q v →
    (∃ later a u, Runs others q v later (.done a) u) ∧ ∀ a, q = .done a → post calls a v

theorem Meets.yields {others : World K → World K → Prop} (h : Meets T p post w)
    (hothers : ∀ u v, others u v → T.others u v) (hexit : ¬ T.mayExit) :
    Yields others p w post := by
  intro calls q v run
  have run' : Runs T.others p w calls q v := run.weaken hothers
  constructor
  · obtain ⟨later, q', u, rest, hq⟩ := exists_runs_to_end others q v
    rcases hq with ⟨a, rfl⟩ | ⟨code, next, rfl⟩
    · exact ⟨later, a, u, rest⟩
    · exact absurd ((rest.weaken hothers).exits (run'.meets h).2.2) hexit
  · rintro a rfl
    exact run'.ends h

theorem Yields.mono {others : World K → World K → Prop} (h : Yields others p w post)
    (hpost : ∀ calls a v, post calls a v → post' calls a v) : Yields others p w post' :=
  fun calls q v run => ⟨(h calls q v run).1, fun a hq => hpost _ _ _ ((h calls q v run).2 a hq)⟩

end Steward.Action
