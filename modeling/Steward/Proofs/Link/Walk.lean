import Steward.Proofs.Link.Graph
import Steward.Proofs.Sequence
/-!
The walk of a pass. Wherever a walk has come to, each component stands once among those that are
done or pending, what is done has its targets done before it, and each pending component is
reached from a target of the one below it without going through those below. What one visit adds
is closed: from there the pass can go on only to what is done or pending.

No component is pending when a walk ends, so what is done then is all that the start reaches.
-/
namespace Steward.Link

variable {ρ : Type}

namespace Progress

def done (p : Progress ρ) : List String := p.visits.map (·.name)

/-- The components that the walk has begun with, done or pending. -/
def begun (p : Progress ρ) : List String := p.done ++ p.pending

@[simp] theorem isDone_eq_true_iff {p : Progress ρ} {name : String} :
    p.isDone name = true ↔ name ∈ p.done := by
  simp [isDone, done]

@[simp] theorem isPending_eq_true_iff {p : Progress ρ} {name : String} :
    p.isPending name = true ↔ name ∈ p.pending := by
  simp [isPending]

theorem mem_begun {p : Progress ρ} {name : String} :
    name ∈ p.begun ↔ name ∈ p.done ∨ name ∈ p.pending := List.mem_append

@[simp] theorem begun_enter (p : Progress ρ) (name : String) :
    (p.enter name).begun = p.begun ++ [name] := (List.append_assoc ..).symm

@[simp] theorem done_finish (p : Progress ρ) (v : Visit ρ) :
    (p.finish v).done = p.done ++ [v.name] := by
  simp [finish, done]

@[simp] theorem pending_finish (p : Progress ρ) (v : Visit ρ) :
    (p.finish v).pending = p.pending.dropLast := rfl

@[simp] theorem forEach_nil {α : Type} (go : Progress ρ → α → Progress ρ) (p : Progress ρ) :
    p.forEach go [] = p := rfl

@[simp] theorem forEach_cons {α : Type} (go : Progress ρ → α → Progress ρ) (p : Progress ρ) (a : α)
    (as : List α) :
    p.forEach go (a :: as) = (if p.fault.isSome then p else go p a).forEach go as := rfl

theorem forEach_of_fault {α : Type} {go : Progress ρ → α → Progress ρ} {p : Progress ρ}
    {as : List α} (h : p.fault.isSome = true) : p.forEach go as = p := by
  induction as with
  | nil => rfl
  | cons a as ih => simp [h, ih]

theorem forEach_induct {α : Type} {P : Progress ρ → Prop} {go : Progress ρ → α → Progress ρ}
    (hgo : ∀ p a, P p → P (go p a)) (as : List α) {p : Progress ρ} (hp : P p) :
    P (p.forEach go as) := by
  induction as generalizing p with
  | nil => exact hp
  | cons a as ih =>
    rw [forEach_cons]
    apply ih
    split
    · exact hp
    · exact hgo p a hp

end Progress

def AllFound (t : Topology ρ) (visits : List (Visit ρ)) : Prop :=
  ∀ v ∈ visits, t.find v.name = .ok v.found

theorem allFound_visit (t : Topology ρ) (op : Operation) (depth : Nat) (asFollower : Bool)
    (p : Progress ρ) (target : String × Token) (hp : AllFound t p.visits) :
    AllFound t (visit t op depth asFollower p target).visits := by
  induction depth generalizing asFollower p target with
  | zero => exact hp
  | succ depth ih =>
    obtain ⟨name, token⟩ := target
    rw [visit]
    split
    · exact hp
    split
    · split <;> exact hp
    have htargets (as : List (String × Token)) :
        AllFound t ((p.enter name).forEach (visit t op depth false) as).visits :=
      Progress.forEach_induct (ih false) as hp
    dsimp only
    split
    · exact htargets _
    split
    · exact htargets _
    · rename_i found hfound
      refine Progress.forEach_induct (ih true) _ fun v hv => ?_
      rcases List.mem_append.1 hv with hv | hv
      · exact htargets _ v hv
      · obtain rfl := List.mem_singleton.1 hv
        exact hfound

theorem allFound_route (t : Topology ρ) (op : Operation) (start : String) (token : Token) :
    AllFound t (route t op start token).visits :=
  allFound_visit t op _ false {} (start, token) (List.forall_mem_nil _)

section Walk

variable (t : Topology ρ) (op : Operation) (start : String) (token : Token)

/-- The token that a component runs with: the given one at the start, elsewhere that of a link
over which the walk came from another component. -/
def TokenFits (name : String) (used : Token) : Prop :=
  (name = start ∧ used = token) ∨
    (name ≠ start ∧ ∃ b, b ≠ name ∧ t.Reaches op start b ∧
      ((∃ l ∈ t.links b, op.follows l = true ∧ l.target = name ∧ l.token = used) ∨
        ∃ f ∈ t.followers b, op.follows f.2 = true ∧ f.1 = name ∧ f.2.token = used))

def TargetsFirst (visits : List (Visit ρ)) : Prop :=
  Prefixwise (fun before v => ∀ b, t.Ties op v.name b → b ∈ before.map (·.name)) visits

/-- Each component of a list is reached from a target of the one before it, past all before. -/
def Stacked (pending : List String) : Prop :=
  ∀ below x y above, pending = below ++ x :: y :: above →
    ∃ b, t.Ties op x b ∧ t.ReachesPast op (below ++ [x]) b y

def Enterable (pending : List String) (name : String) : Prop :=
  ∀ below x, pending = below ++ [x] → ∃ b, t.Ties op x b ∧ t.ReachesPast op pending b name

/-- What holds of a walk wherever it has come to. -/
structure Sound (p : Progress ρ) : Prop where
  nodup : p.begun.Nodup
  reaches : ∀ n ∈ p.begun, t.Reaches op start n
  found : ∀ v ∈ p.visits, t.find v.name = .ok v.found
  targetsFirst : TargetsFirst t op p.visits
  tokenFits : ∀ v ∈ p.visits, TokenFits t op start token v.name v.token
  stacked : Stacked t op p.pending

/-- Why a walk ends early: a component is not found, or the last pending component has a link onto
a pending one. -/
def Blamed (p : Progress ρ) (fault : Fault) : Prop :=
  (∃ n, t.Reaches op start n ∧ t.find n = .error fault) ∨
    ∃ x z, x ∈ p.pending ∧ p.pending.getLast? = some z ∧ t.Ties op z x ∧
      fault = .linkCycle (p.pending ++ [x])

structure Extends (p q : Progress ρ) : Prop where
  sound : Sound t op start token q
  visits : p.visits <+: q.visits
  pending : q.fault = none → q.pending = p.pending
  closed : q.fault = none → ∀ a ∈ q.done, a ∉ p.done → ∀ b, t.Leads op a b → b ∈ q.begun
  blamed : ∀ fault, q.fault = some fault → Blamed t op start q fault

structure Visitable (p : Progress ρ) (asFollower : Bool) (name : String) (used : Token) : Prop where
  sound : Sound t op start token p
  fine : p.fault = none
  mem : name ∈ start :: t.names
  reaches : t.Reaches op start name
  enterable : name ∉ p.begun → Enterable t op p.pending name
  tokenFits : name ∉ p.begun → TokenFits t op start token name used
  begun : start ∈ p.begun ∨ name = start
  target : asFollower = false → name ∈ p.pending →
    ∃ z, p.pending.getLast? = some z ∧ t.Ties op z name

def fresh (p : Progress ρ) : List String := (start :: t.names).filter fun n => n ∉ p.begun

variable {t op start token}

theorem stacked_push {pending : List String} {name : String} (h : Stacked t op pending)
    (hname : Enterable t op pending name) : Stacked t op (pending ++ [name]) := by
  intro below x y above heq
  rcases List.eq_nil_or_concat above with rfl | ⟨above', z, rfl⟩
  · have hsplit : pending = below ++ [x] ∧ name = y := by
      have : pending ++ [name] = (below ++ [x]) ++ [y] := by simpa using heq
      simpa using List.append_inj' this rfl
    obtain ⟨hpending, rfl⟩ := hsplit
    obtain ⟨b, htie, hpast⟩ := hname below x hpending
    exact ⟨b, htie, hpending ▸ hpast⟩
  · have hsplit : pending = below ++ x :: y :: above' := by
      have : pending ++ [name] = (below ++ x :: y :: above') ++ [z] := by simpa using heq
      exact (List.append_inj' this rfl).1
    exact h below x y above' hsplit

theorem Extends.refl {p : Progress ρ} (hp : Sound t op start token p) (h : p.fault = none) :
    Extends t op start token p p where
  sound := hp
  visits := List.prefix_refl _
  pending _ := rfl
  closed _ a ha hn := absurd ha hn
  blamed fault hf := by simp [h] at hf

theorem Extends.done_subset {p q : Progress ρ} (h : Extends t op start token p q) :
    p.done ⊆ q.done := by
  obtain ⟨rest, hrest⟩ := h.visits
  simp [Progress.done, ← hrest]

theorem Extends.begun_subset {p q : Progress ρ} (h : Extends t op start token p q)
    (hq : q.fault = none) : p.begun ⊆ q.begun := by
  intro n hn
  rcases Progress.mem_begun.1 hn with hn | hn
  · exact Progress.mem_begun.2 (.inl (h.done_subset hn))
  · exact Progress.mem_begun.2 (.inr (h.pending hq ▸ hn))

theorem Extends.trans {p q r : Progress ρ} (hpq : Extends t op start token p q)
    (hq : q.fault = none) (hqr : Extends t op start token q r) :
    Extends t op start token p r where
  sound := hqr.sound
  visits := hpq.visits.trans hqr.visits
  pending hr := (hqr.pending hr).trans (hpq.pending hq)
  closed hr a ha hn b hab := by
    by_cases hmem : a ∈ q.done
    · exact hqr.begun_subset hr (hpq.closed hq a hmem hn b hab)
    · exact hqr.closed hr a ha hmem b hab
  blamed := hqr.blamed

theorem length_fresh_lt {p q : Progress ρ} {name : String} (h : p.begun ⊆ q.begun)
    (hmem : name ∈ start :: t.names) (hp : name ∉ p.begun) (hq : name ∈ q.begun) :
    (fresh t start q).length < (fresh t start p).length := by
  have hsub : (fresh t start q).Sublist (fresh t start p) := by
    refine List.monotone_filter_right _ fun n hn => ?_
    simp only [decide_eq_true_eq] at hn ⊢
    exact fun hp => hn (h hp)
  refine Nat.lt_of_le_of_ne hsub.length_le fun heq => ?_
  have hname : name ∈ fresh t start p := List.mem_filter.2 ⟨hmem, by simpa using hp⟩
  rw [← hsub.eq_of_length heq] at hname
  simpa [hq] using (List.mem_filter.1 hname).2

/-- A component that was visited is done, or it is pending and was come to as a follower. -/
def Settled (p : Progress ρ) (asFollower : Bool) (name : String) : Prop :=
  name ∈ p.done ∨ (asFollower = true ∧ name ∈ p.pending)

theorem Extends.settled {p q : Progress ρ} {asFollower : Bool} {name : String}
    (h : Extends t op start token p q) (hq : q.fault = none) (hs : Settled p asFollower name) :
    Settled q asFollower name := by
  rcases hs with hs | ⟨ha, hs⟩
  · exact .inl (h.done_subset hs)
  · exact .inr ⟨ha, h.pending hq ▸ hs⟩

theorem extends_forEach (asFollower : Bool) (go : Progress ρ → String × Token → Progress ρ)
    (as : List (String × Token)) {p : Progress ρ} (hp : Sound t op start token p)
    (hfine : p.fault = none)
    (hgo : ∀ q, ∀ a ∈ as, Extends t op start token p q → q.fault = none →
      Extends t op start token q (go q a) ∧
        ((go q a).fault = none → Settled (go q a) asFollower a.1)) :
    Extends t op start token p (p.forEach go as) ∧
      ((p.forEach go as).fault = none → ∀ a ∈ as, Settled (p.forEach go as) asFollower a.1) := by
  suffices h : ∀ (as' : List (String × Token)) (q : Progress ρ), (∀ a ∈ as', a ∈ as) →
      Extends t op start token p q →
      Extends t op start token p (q.forEach go as') ∧
        ((q.forEach go as').fault = none → Extends t op start token q (q.forEach go as') ∧
          ∀ a ∈ as', Settled (q.forEach go as') asFollower a.1) by
    obtain ⟨hext, hall⟩ := h as p (fun _ h => h) (.refl hp hfine)
    exact ⟨hext, fun hf => (hall hf).2⟩
  intro as'
  induction as' with
  | nil =>
    intro q _ hq
    exact ⟨hq, fun hf => ⟨.refl hq.sound hf, by simp⟩⟩
  | cons a as' ih =>
    intro q hmem hq
    rcases hf : q.fault with _ | fault
    · obtain ⟨hstep, hsettled⟩ := hgo q a (hmem a (by simp)) hq hf
      have hnext := hq.trans hf hstep
      obtain ⟨hext, hall⟩ := ih (go q a) (fun b hb => hmem b (by simp [hb])) hnext
      simp only [Progress.forEach_cons, hf, Option.isSome_none, Bool.false_eq_true, if_false]
      refine ⟨hext, fun hfin => ?_⟩
      obtain ⟨hrest, hsettledRest⟩ := hall hfin
      have hfine' : (go q a).fault = none := by
        by_contra hne
        have hsome : (go q a).fault.isSome = true := Option.isSome_iff_ne_none.2 hne
        rw [Progress.forEach_of_fault hsome] at hfin
        exact hne hfin
      refine ⟨hstep.trans hfine' hrest, List.forall_mem_cons.2 ⟨?_, hsettledRest⟩⟩
      exact hrest.settled hfin (hsettled hfine')
    · have hsome : q.fault.isSome = true := by simp [hf]
      rw [Progress.forEach_of_fault hsome]
      exact ⟨hq, fun hfin => by simp [hf] at hfin⟩

theorem Visitable.sound_enter {p : Progress ρ} {asFollower : Bool} {name : String} {used : Token}
    (h : Visitable t op start token p asFollower name used) (hname : name ∉ p.begun) :
    Sound t op start token (p.enter name) where
  nodup := by
    rw [Progress.begun_enter, List.nodup_append]
    refine ⟨h.sound.nodup, by simp, fun a ha b hb hab => ?_⟩
    simp only [List.mem_singleton] at hb
    exact hname (hb ▸ hab ▸ ha)
  reaches n hn := by
    rw [Progress.begun_enter, List.mem_append, List.mem_singleton] at hn
    rcases hn with hn | rfl
    · exact h.sound.reaches n hn
    · exact h.reaches
  found := h.sound.found
  targetsFirst := h.sound.targetsFirst
  tokenFits := h.sound.tokenFits
  stacked := stacked_push h.sound.stacked (h.enterable hname)

theorem Visitable.target_of_link {p q : Progress ρ} {asFollower : Bool} {name : String}
    {used : Token} {l : Link} (ht : t.Complete)
    (h : Visitable t op start token p asFollower name used)
    (hext : Extends t op start token (p.enter name) q) (hq : q.fault = none)
    (hl : l ∈ t.links name) (hfollows : op.follows l = true) :
    Visitable t op start token q false l.target l.token := by
  have hpending : q.pending = p.pending ++ [name] := hext.pending hq
  have hbegun : name ∈ q.begun := Progress.mem_begun.2 (.inr (by simp [hpending]))
  have hstart : start ∈ q.begun := by
    rcases h.begun with hs | rfl
    · exact hext.begun_subset hq (by simp [hs])
    · exact hbegun
  have htie : t.Ties op name l.target := ⟨l, hl, hfollows, rfl⟩
  refine
    { sound := hext.sound
      fine := hq
      mem := List.mem_cons_of_mem _ (ht.links_mem hl).2
      reaches := h.reaches.tail (.inl htie)
      enterable := fun _ below x hx => ?_
      tokenFits := fun hfresh => .inr ⟨fun e => hfresh (e ▸ hstart), name,
        fun e => hfresh (e ▸ hbegun), h.reaches, .inl ⟨l, hl, hfollows, rfl, rfl⟩⟩
      begun := .inl hstart
      target := fun _ _ => ⟨name, by simp [hpending], htie⟩ }
  obtain rfl : name = x := by
    rw [hpending] at hx
    simpa using (List.append_inj' hx rfl).2
  exact ⟨l.target, htie, .refl⟩

theorem Visitable.sound_finish {p q : Progress ρ} {asFollower : Bool} {name : String}
    {used : Token} {found : ρ} (h : Visitable t op start token p asFollower name used)
    (hname : name ∉ p.begun) (hext : Extends t op start token (p.enter name) q)
    (hq : q.fault = none) (hfound : t.find name = .ok found)
    (htargets : ∀ b, t.Ties op name b → b ∈ q.done) :
    Sound t op start token (q.finish ⟨name, found, used⟩) := by
  have hpending : q.pending = p.pending ++ [name] := hext.pending hq
  have hbegun : (q.finish ⟨name, found, used⟩).begun.Perm q.begun := by
    simp only [Progress.begun, Progress.done_finish, Progress.pending_finish, hpending,
      List.dropLast_concat, List.append_assoc]
    exact List.Perm.append_left _ List.perm_append_comm
  refine
    { nodup := hbegun.nodup_iff.2 hext.sound.nodup
      reaches := fun n hn => hext.sound.reaches n (hbegun.mem_iff.1 hn)
      found := ?_
      targetsFirst := hext.sound.targetsFirst.concat htargets
      tokenFits := ?_
      stacked := ?_ }
  · intro v hv
    rcases List.mem_append.1 hv with hv | hv
    · exact hext.sound.found v hv
    · obtain rfl := List.mem_singleton.1 hv
      exact hfound
  · intro v hv
    rcases List.mem_append.1 hv with hv | hv
    · exact hext.sound.tokenFits v hv
    · obtain rfl := List.mem_singleton.1 hv
      exact h.tokenFits hname
  · rw [Progress.pending_finish, hpending, List.dropLast_concat]
    exact h.sound.stacked

theorem Visitable.follower {p q r : Progress ρ} {asFollower : Bool} {name : String}
    {used : Token} {found : ρ} {f : String × Link} (ht : t.Complete)
    (h : Visitable t op start token p asFollower name used) (hname : name ∉ p.begun)
    (hext : Extends t op start token (p.enter name) q) (hq : q.fault = none)
    (hr : Extends t op start token (q.finish ⟨name, found, used⟩) r) (hfine : r.fault = none)
    (hf : f ∈ t.followers name) (hfollows : op.follows f.2 = true) :
    Visitable t op start token r true f.1 f.2.token := by
  have hpending : r.pending = p.pending := by
    rw [hr.pending hfine]
    simp [Progress.finish, hext.pending hq, Progress.enter]
  have hdone : name ∈ r.done := hr.done_subset (by simp)
  have hbegun : name ∈ r.begun := Progress.mem_begun.2 (.inl hdone)
  have hstart : start ∈ r.begun := by
    rcases h.begun with hs | rfl
    · rcases Progress.mem_begun.1 hs with hs | hs
      · refine Progress.mem_begun.2 (.inl (hr.done_subset ?_))
        have hmem : start ∈ q.done := hext.done_subset hs
        simp [hmem]
      · exact Progress.mem_begun.2 (.inr (hpending ▸ hs))
    · exact hbegun
  have htrail : t.Trails op name f.1 := ⟨f, hf, hfollows, rfl⟩
  refine
    { sound := hr.sound
      fine := hfine
      mem := List.mem_cons_of_mem _ (ht.followers_mem hf).2
      reaches := h.reaches.tail (.inr htrail)
      enterable := fun hfresh below x hx => ?_
      tokenFits := fun hfresh => .inr ⟨fun e => hfresh (e ▸ hstart), name,
        fun e => hfresh (e ▸ hbegun), h.reaches, .inr ⟨f, hf, hfollows, rfl, rfl⟩⟩
      begun := .inl hstart
      target := fun e => by simp at e }
  -- the component was reached past all that is pending, and from there the follower is
  obtain ⟨b, htie, hpast⟩ := h.enterable hname below x (hpending ▸ hx)
  refine ⟨b, htie, hpending.symm ▸ hpast.tail ⟨.inr htrail, ?_, ?_⟩⟩
  · exact fun hmem => hname (Progress.mem_begun.2 (.inr hmem))
  · exact fun hmem => hfresh (Progress.mem_begun.2 (.inr (hpending ▸ hmem)))

def throughTargets (t : Topology ρ) (op : Operation) (depth : Nat) (p : Progress ρ)
    (name : String) : Progress ρ :=
  (p.enter name).forEach (visit t op depth false)
    ((t.links name).filter op.follows |>.map fun l => (l.target, l.token))

def throughFollowers (t : Topology ρ) (op : Operation) (depth : Nat) (p : Progress ρ)
    (name : String) : Progress ρ :=
  p.forEach (visit t op depth true)
    ((t.followers name).filter (fun f => op.follows f.2) |>.map fun f => (f.1, f.2.token))

theorem visit_of_mem_done {depth : Nat} {asFollower : Bool} {p : Progress ρ} {name : String}
    {used : Token} (h : name ∈ p.done) : visit t op (depth + 1) asFollower p (name, used) = p := by
  rw [visit, if_pos (Progress.isDone_eq_true_iff.2 h)]

theorem visit_of_mem_pending {depth : Nat} {asFollower : Bool} {p : Progress ρ} {name : String}
    {used : Token} (hdone : name ∉ p.done) (h : name ∈ p.pending) :
    visit t op (depth + 1) asFollower p (name, used) =
      if asFollower then p else p.fail (.linkCycle (p.pending ++ [name])) := by
  rw [visit, if_neg (by simpa using hdone), if_pos (Progress.isPending_eq_true_iff.2 h)]

theorem visit_of_not_mem {depth : Nat} {asFollower : Bool} {p : Progress ρ} {name : String}
    {used : Token} (h : name ∉ p.begun) :
    visit t op (depth + 1) asFollower p (name, used) =
      let q := throughTargets t op depth p name
      if q.fault.isSome then q
      else match t.find name with
        | .error fault => q.fail fault
        | .ok found => throughFollowers t op depth (q.finish ⟨name, found, used⟩) name := by
  have hdone : ¬ p.isDone name = true := by
    rw [Progress.isDone_eq_true_iff]
    exact fun hmem => h (Progress.mem_begun.2 (.inl hmem))
  have hpending : ¬ p.isPending name = true := by
    rw [Progress.isPending_eq_true_iff]
    exact fun hmem => h (Progress.mem_begun.2 (.inr hmem))
  rw [visit, if_neg hdone, if_neg hpending]
  rfl

theorem Settled.mem_done {p : Progress ρ} {name : String} (h : Settled p false name) :
    name ∈ p.done := by
  rcases h with h | ⟨h, -⟩
  · exact h
  · simp at h

theorem Settled.mem_begun {p : Progress ρ} {asFollower : Bool} {name : String}
    (h : Settled p asFollower name) : name ∈ p.begun := by
  rcases h with h | ⟨-, h⟩
  · exact Progress.mem_begun.2 (.inl h)
  · exact Progress.mem_begun.2 (.inr h)

def Walks (t : Topology ρ) (op : Operation) (start : String) (token : Token) (depth : Nat) : Prop :=
  ∀ ⦃p : Progress ρ⦄ ⦃asFollower : Bool⦄ ⦃name : String⦄ ⦃used : Token⦄,
    Visitable t op start token p asFollower name used → (fresh t start p).length < depth →
    Extends t op start token p (visit t op depth asFollower p (name, used)) ∧
      ((visit t op depth asFollower p (name, used)).fault = none →
        Settled (visit t op depth asFollower p (name, used)) asFollower name)

theorem Visitable.length_fresh_lt {p q : Progress ρ} {asFollower : Bool} {name : String}
    {used : Token} {depth : Nat} (h : Visitable t op start token p asFollower name used)
    (hname : name ∉ p.begun) (hdepth : (fresh t start p).length < depth + 1)
    (hsub : p.begun ⊆ q.begun) (hq : name ∈ q.begun) : (fresh t start q).length < depth := by
  have hlt : (fresh t start q).length < (fresh t start p).length :=
    Link.length_fresh_lt hsub h.mem hname hq
  omega

theorem Visitable.each_target {depth : Nat} {p q : Progress ρ} {asFollower : Bool} {name : String}
    {used : Token} (ht : t.Complete) (h : Visitable t op start token p asFollower name used)
    (hname : name ∉ p.begun) (hdepth : (fresh t start p).length < depth + 1)
    {a : String × Token}
    (ha : a ∈ ((t.links name).filter op.follows).map fun l => (l.target, l.token))
    (hq : Extends t op start token (p.enter name) q) (hf : q.fault = none) :
    Visitable t op start token q false a.1 a.2 ∧ (fresh t start q).length < depth := by
  obtain ⟨l, hl, rfl⟩ := List.mem_map.1 ha
  obtain ⟨hl, hfollows⟩ := List.mem_filter.1 hl
  have hsub : (p.enter name).begun ⊆ q.begun := hq.begun_subset hf
  rw [Progress.begun_enter] at hsub
  exact ⟨h.target_of_link ht hq hf hl hfollows, h.length_fresh_lt hname hdepth
    (fun _ hn => hsub (List.mem_append_left _ hn)) (hsub (by simp))⟩

/-- Each follower of a component that is done can be visited from there, with one level less. -/
theorem Visitable.each_follower {depth : Nat} {p q r : Progress ρ} {asFollower : Bool}
    {name : String} {used : Token} {found : ρ} (ht : t.Complete)
    (h : Visitable t op start token p asFollower name used) (hname : name ∉ p.begun)
    (hdepth : (fresh t start p).length < depth + 1)
    (hext : Extends t op start token (p.enter name) q) (hq : q.fault = none) {a : String × Token}
    (ha : a ∈ ((t.followers name).filter fun f => op.follows f.2).map fun f => (f.1, f.2.token))
    (hr : Extends t op start token (q.finish ⟨name, found, used⟩) r) (hf : r.fault = none) :
    Visitable t op start token r true a.1 a.2 ∧ (fresh t start r).length < depth := by
  have hfinish : p.begun ⊆ (q.finish ⟨name, found, used⟩).begun := by
    intro n hn
    rcases Progress.mem_begun.1 hn with hn | hn
    · have hmem : n ∈ q.done := hext.done_subset hn
      exact Progress.mem_begun.2 (.inl (by simp [hmem]))
    · refine Progress.mem_begun.2 (.inr ?_)
      simpa [hext.pending hq, Progress.enter] using hn
  obtain ⟨f, hf', rfl⟩ := List.mem_map.1 ha
  obtain ⟨hf', hfollows⟩ := List.mem_filter.1 hf'
  have hsub := hr.begun_subset hf
  exact ⟨h.follower ht hname hext hq hr hf hf' hfollows, h.length_fresh_lt hname hdepth
    (fun _ hn => hsub (hfinish hn)) (hsub (Progress.mem_begun.2 (.inl (by simp))))⟩

theorem Walks.targets {depth : Nat} {p : Progress ρ} {asFollower : Bool} {name : String}
    {used : Token} (hw : Walks t op start token depth) (ht : t.Complete)
    (h : Visitable t op start token p asFollower name used) (hname : name ∉ p.begun)
    (hdepth : (fresh t start p).length < depth + 1) :
    Extends t op start token (p.enter name) (throughTargets t op depth p name) ∧
      ((throughTargets t op depth p name).fault = none →
        ∀ b, t.Ties op name b → b ∈ (throughTargets t op depth p name).done) := by
  obtain ⟨hext, hsettled⟩ := extends_forEach false (visit t op depth false)
    ((t.links name).filter op.follows |>.map fun l => (l.target, l.token))
    (h.sound_enter hname) h.fine (by
      intro q a ha hq hf
      obtain ⟨hvisitable, hless⟩ := h.each_target ht hname hdepth ha hq hf
      exact hw hvisitable hless)
  refine ⟨hext, fun hf b hb => ?_⟩
  obtain ⟨l, hl, hfollows, rfl⟩ := hb
  exact (hsettled hf _ (List.mem_map.2 ⟨l, List.mem_filter.2 ⟨hl, hfollows⟩, rfl⟩)).mem_done

theorem Walks.followers {depth : Nat} {p q : Progress ρ} {asFollower : Bool} {name : String}
    {used : Token} {found : ρ} (hw : Walks t op start token depth) (ht : t.Complete)
    (h : Visitable t op start token p asFollower name used) (hname : name ∉ p.begun)
    (hdepth : (fresh t start p).length < depth + 1)
    (hext : Extends t op start token (p.enter name) q) (hq : q.fault = none)
    (hsound : Sound t op start token (q.finish ⟨name, found, used⟩)) :
    Extends t op start token (q.finish ⟨name, found, used⟩)
        (throughFollowers t op depth (q.finish ⟨name, found, used⟩) name) ∧
      ((throughFollowers t op depth (q.finish ⟨name, found, used⟩) name).fault = none →
        ∀ b, t.Trails op name b →
          b ∈ (throughFollowers t op depth (q.finish ⟨name, found, used⟩) name).begun) := by
  obtain ⟨hrest, hsettled⟩ := extends_forEach true (visit t op depth true)
    ((t.followers name).filter (fun f => op.follows f.2) |>.map fun f => (f.1, f.2.token))
    hsound hq (by
      intro r a ha hr hf
      obtain ⟨hvisitable, hless⟩ := h.each_follower ht hname hdepth hext hq ha hr hf
      exact hw hvisitable hless)
  refine ⟨hrest, fun hf b hb => ?_⟩
  obtain ⟨f, hf', hfollows, rfl⟩ := hb
  exact (hsettled hf _ (List.mem_map.2 ⟨f, List.mem_filter.2 ⟨hf', hfollows⟩, rfl⟩)).mem_begun

theorem extends_fail {p q : Progress ρ} {fault : Fault} (hsound : Sound t op start token q)
    (hvisits : p.visits <+: q.visits) (hblamed : Blamed t op start q fault) :
    Extends t op start token p (q.fail fault) where
  sound := ⟨hsound.nodup, hsound.reaches, hsound.found, hsound.targetsFirst, hsound.tokenFits,
    hsound.stacked⟩
  visits := hvisits
  pending hf := by simp [Progress.fail] at hf
  closed hf := by simp [Progress.fail] at hf
  blamed fault' hf := by
    obtain rfl : fault = fault' := by simpa [Progress.fail] using hf
    exact hblamed

theorem extends_of_parts {p q r : Progress ρ} {name : String} {found : ρ} {used : Token}
    (hq : Extends t op start token (p.enter name) q) (hfq : q.fault = none)
    (hr : Extends t op start token (q.finish ⟨name, found, used⟩) r)
    (htargets : ∀ b, t.Ties op name b → b ∈ q.done)
    (hfollowers : r.fault = none → ∀ b, t.Trails op name b → b ∈ r.begun) :
    Extends t op start token p r where
  sound := hr.sound
  visits := (hq.visits.trans (List.prefix_append ..)).trans hr.visits
  pending hf := by
    rw [hr.pending hf]
    simp [hq.pending hfq, Progress.enter]
  closed hf a ha hn b hab := by
    have hdone : q.done ⊆ r.done := fun n hn => hr.done_subset (by simp [hn])
    by_cases hname : a = name
    · subst hname
      rcases hab with hab | hab
      · exact Progress.mem_begun.2 (.inl (hdone (htargets b hab)))
      · exact hfollowers hf b hab
    · by_cases hmem : a ∈ q.done
      · have hb : b ∈ q.begun := hq.closed hfq a hmem hn b hab
        rcases Progress.mem_begun.1 hb with hb | hb
        · exact Progress.mem_begun.2 (.inl (hdone hb))
        · -- among what was pending then, only the component itself is done since
          rw [hq.pending hfq, Progress.enter, List.mem_append, List.mem_singleton] at hb
          rcases hb with hb | rfl
          · refine Progress.mem_begun.2 (.inr ?_)
            rw [hr.pending hf]
            simpa [hq.pending hfq, Progress.enter] using hb
          · exact Progress.mem_begun.2 (.inl (hr.done_subset (by simp)))
      · exact hr.closed hf a ha (by simp [hname, hmem]) b hab
  blamed := hr.blamed

theorem Walks.succ {depth : Nat} (hw : Walks t op start token depth) (ht : t.Complete) :
    Walks t op start token (depth + 1) := by
  intro p asFollower name used h hdepth
  by_cases hname : name ∈ p.begun
  · by_cases hdone : name ∈ p.done
    · rw [visit_of_mem_done hdone]
      exact ⟨.refl h.sound h.fine, fun _ => .inl hdone⟩
    · have hpending : name ∈ p.pending := (Progress.mem_begun.1 hname).resolve_left hdone
      rw [visit_of_mem_pending hdone hpending]
      cases asFollower with
      | true => exact ⟨.refl h.sound h.fine, fun _ => .inr ⟨rfl, hpending⟩⟩
      | false =>
        obtain ⟨z, hz, htie⟩ := h.target rfl hpending
        refine ⟨extends_fail h.sound (List.prefix_refl _) ?_, fun hf => ?_⟩
        · exact .inr ⟨name, z, hpending, hz, htie, rfl⟩
        · simp [Progress.fail] at hf
  · rw [visit_of_not_mem hname]
    obtain ⟨hext, htargets⟩ := hw.targets ht h hname hdepth
    have hvisits : p.visits <+: (throughTargets t op depth p name).visits := hext.visits
    dsimp only
    rcases hq : (throughTargets t op depth p name).fault with _ | fault
    · rw [if_neg (by simp)]
      rcases hfound : t.find name with fault | found
      · refine ⟨extends_fail hext.sound hvisits (.inl ⟨name, h.reaches, hfound⟩), fun hf => ?_⟩
        simp [Progress.fail] at hf
      · have hsound := h.sound_finish hname hext hq hfound (htargets hq)
        obtain ⟨hrest, hfollowers⟩ := hw.followers ht h hname hdepth hext hq hsound
        refine ⟨extends_of_parts hext hq hrest (htargets hq) hfollowers, fun _ => .inl ?_⟩
        exact hrest.done_subset (by simp)
    · rw [if_pos (by simp)]
      refine ⟨⟨hext.sound, hvisits, fun hf => ?_, fun hf => ?_, hext.blamed⟩, fun hf => ?_⟩
      all_goals simp [hq] at hf

theorem walks (ht : t.Complete) (depth : Nat) : Walks t op start token depth := by
  induction depth with
  | zero => exact fun _ _ _ _ _ h => absurd h (Nat.not_lt_zero _)
  | succ depth ih => exact ih.succ ht

end Walk

end Steward.Link
