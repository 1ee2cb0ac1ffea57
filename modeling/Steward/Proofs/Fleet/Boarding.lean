import Steward.Fleet.Boot
import Steward.Proofs.Cell.Building
import Steward.Proofs.Registry.Plan
/-!
Making and building the components of a plan, one after the other. Whenever a factory is called,
the fleet has just the components of the steps before, each in a cell of its own and with the
report of its first build pass; so whatever the step refers to is there.
-/
namespace Steward

open Steward.Action

variable {K : Kit}

namespace Roster

variable {r : Roster} {m : Member}

theorem mem_of_member? {name : String} (h : r.member? name = some m) :
    m ∈ r.members ∧ m.name = name :=
  ⟨List.mem_of_find?_eq_some h, by simpa using List.find?_some h⟩

theorem member?_of_mem (hnodup : (r.members.map (·.name)).Nodup) (hm : m ∈ r.members) :
    r.member? m.name = some m := find?_key_of_mem hnodup hm

theorem member?_isSome_iff {name : String} :
    (r.member? name).isSome = true ↔ name ∈ r.members.map (·.name) := by
  simp [member?, List.find?_isSome]

end Roster

namespace Fleet

/-- Terms for a task that leaves the fleet as it is and tears down at most what is not spared, as
long as nobody else touches the fleet. -/
def sparing (spared : CellId → Prop) (may : Invocation → World K → Prop) : Terms K where
  others := World.Keeps fun _ => True
  own := World.Keeps spared
  may := may
  mayExit := False
  others_refl := .refl _
  others_trans := .trans
  own_of_others h := ⟨h.roster, h.config, h.cells.mono fun _ _ => trivial⟩
  own_trans := .trans

def founding (config : Config) (may : Invocation → World K → Prop) : Terms K where
  others := World.Keeps fun _ => True
  own v w := w.config = v.config ∨ w.config = config
  may := may
  mayExit := config.abortPolicy = .exit
  others_refl := .refl _
  others_trans := .trans
  own_of_others h := .inl h.config
  own_trans huv hvw := by
    rcases hvw with hvw | hvw
    · rwa [hvw]
    · exact .inr hvw

variable {spared : CellId → Prop} {config : Config} {may : Invocation → World K → Prop}
  {v w : World K}

theorem hosts_sparing (h : ∀ what v, what.isOfMini = true → may what v) :
    Hosts (sparing spared may) spared :=
  ⟨fun h => h, fun h => h.cells, h⟩

theorem founding_of_sparing {α : Type} {program : Action K α}
    {post : Calls K → α → World K → Prop} (h : Meets (sparing spared may) program post w) :
    Meets (founding config may) program
      (fun calls a v => World.Keeps spared w v ∧ post calls a v) w :=
  h.own.relax (fun _ _ h => h) (fun _ _ h => .inl h.config) (fun _ _ h => h) False.elim

abbrev Step (K : Kit) := Registry.Step (Factory K)

structure Serves (w : World K) (s : Step K) (m : Member) : Prop where
  name : m.name = s.name
  dependencies : m.dependencies = s.dependencies
  links : m.links = s.links
  houses : w.Houses m.cell s.name
  standing : w.IsStanding m.cell

structure Housed (w : World K) : Prop where
  cells : (w.roster.members.map (·.cell)).Nodup
  houses : ∀ m ∈ w.roster.members, w.Houses m.cell m.name

theorem Housed.keeps (h : Housed v) (hw : World.Keeps spared v w) : Housed w where
  cells := hw.roster ▸ h.cells
  houses m hm := hw.cells.houses (h.houses m (hw.roster ▸ hm))

theorem houses_join (s : Step K) (product : Product K) (w : World K) :
    (Fleet.join s product w).Houses w.cells.size s.name :=
  ⟨_, Array.getElem?_push_size, rfl, rfl⟩

theorem Housed.join (h : Housed w) (s : Step K) (product : Product K) :
    Housed (Fleet.join s product w) where
  cells := by
    show (List.map (·.cell) (w.roster.members ++
      [(⟨s.name, w.cells.size, s.dependencies, s.links, s.isManager⟩ : Member)])).Nodup
    rw [List.map_append, List.map_singleton, ← List.concat_eq_append]
    refine h.cells.concat fun hmem => ?_
    obtain ⟨m, hm, hcell⟩ := List.mem_map.1 hmem
    obtain ⟨c, hc, -⟩ := h.houses m hm
    have hlt : m.cell < w.cells.size := (Array.getElem?_eq_some_iff.1 hc).1
    exact Nat.ne_of_lt hlt hcell
  houses m hm := by
    have hcells : World.KeepsCells (fun _ => True) w (Fleet.join s product w) :=
      (World.keeps_addCell w _).cells
    rcases List.mem_append.1 hm with hm | hm
    · exact hcells.houses (h.houses m hm)
    · obtain rfl := List.mem_singleton.1 hm
      exact houses_join s product w

structure Boarded (p : Registry.Plan (Factory K)) (joined built : List (Step K)) (w : World K) :
    Prop where
  members : List.Forall₂ (Serves w) joined w.roster.members
  cells : (w.roster.members.map (·.cell)).Nodup
  order : w.roster.order = joined.map (·.name)
  skipped : w.roster.skipped = p.skipped
  aliases : w.roster.aliases = p.aliases
  reports : w.roster.bootReports.map (fun r => (r.component, r.token)) =
    built.map fun s => (s.name, Token.boot)

variable {p : Registry.Plan (Factory K)} {joined built : List (Step K)}

theorem Serves.keeps {s : Step K} {m : Member} (h : Serves v s m)
    (hw : World.KeepsCells (fun _ => True) v w) : Serves w s m :=
  ⟨h.name, h.dependencies, h.links, hw.houses h.houses, hw.isStanding trivial h.standing⟩

theorem Boarded.keeps (h : Boarded p joined built v) (hw : World.Keeps (fun _ => True) v w) :
    Boarded p joined built w := by
  obtain ⟨hroster, -, hcells⟩ := hw
  exact
    { members := hroster ▸ h.members.imp fun _ _ hs => hs.keeps hcells
      cells := hroster ▸ h.cells
      order := hroster ▸ h.order
      skipped := hroster ▸ h.skipped
      aliases := hroster ▸ h.aliases
      reports := hroster ▸ h.reports }

theorem Boarded.names (h : Boarded p joined built w) :
    w.roster.members.map (·.name) = joined.map (·.name) :=
  map_eq_map_of_forall₂ (·.name) (·.name) h.members fun _ _ hs => hs.name

theorem Boarded.exists_member (h : Boarded p joined built w) (hnodup : (joined.map (·.name)).Nodup)
    {name : String} (hname : name ∈ joined.map (·.name)) :
    ∃ m, w.roster.member? name = some m ∧ w.Houses m.cell name := by
  rw [← h.names] at hname hnodup
  obtain ⟨m, hm, rfl⟩ := List.mem_map.1 hname
  obtain ⟨s, -, hs⟩ := exists_left_of_forall₂ h.members hm
  exact ⟨m, Roster.member?_of_mem hnodup hm, hs.name ▸ hs.houses⟩

theorem Boarded.housed (h : Boarded p joined built w) : Housed w where
  cells := h.cells
  houses m hm := by
    obtain ⟨s, -, hs⟩ := exists_left_of_forall₂ h.members hm
    exact hs.name ▸ hs.houses

theorem Boarded.join {s : Step K} (h : Boarded p joined built w) (product : Product K) :
    Boarded p (joined ++ [s]) built (join s product w) where
  members := by
    have hcells : World.KeepsCells (fun _ => True) w (Fleet.join s product w) :=
      (World.keeps_addCell w _).cells
    refine List.rel_append (h.members.imp fun _ _ hs => hs.keeps hcells) (.cons ?_ .nil)
    exact ⟨rfl, rfl, rfl, houses_join s product w, ⟨_, Array.getElem?_push_size, rfl, rfl⟩⟩
  cells := (h.housed.join s product).cells
  order := by
    show w.roster.order ++ [s.name] = _
    rw [h.order, List.map_append, List.map_singleton]
  skipped := h.skipped
  aliases := h.aliases
  reports := h.reports

/-- All components before a step are members and through their first build pass, and among them is
whatever the step refers to and whatever its component is declared to depend on. -/
structure FindsAll (p : Registry.Plan (Factory K)) (bs : List (Registry.Blueprint (Factory K)))
    (before : List (Step K)) (s : Step K) (w : World K) : Prop where
  order : w.roster.order = before.map (·.name)
  reports : w.roster.bootReports.map (fun r => (r.component, r.token)) =
    before.map fun s => (s.name, Token.boot)
  needs : ∀ n ∈ s.needs, n ∈ before.map (·.name) ∧
    ∃ m, w.roster.member? n = some m ∧ w.Houses m.cell n
  declared : ∀ b ∈ bs, b.name = s.name → ∀ d ∈ b.dependencies,
    Registry.dealias p.aliases d ∈ before.map (·.name) ∧
      ∃ cell, w.roster.find d = .ok cell ∧ w.Houses cell (Registry.dealias p.aliases d)

/-- A factory is that of a step, and finds what the step needs. -/
def FactoryFindsAll (p : Registry.Plan (Factory K)) (bs : List (Registry.Blueprint (Factory K)))
    (what : Invocation) (w : World K) : Prop :=
  ∀ name, what = .factory name → ∃ before s after, p.steps = before ++ s :: after ∧
    s.name = name ∧ FindsAll p bs before s w

theorem FactoryFindsAll.of_not {bs : List (Registry.Blueprint (Factory K))} {what : Invocation}
    (h : ∀ name, what ≠ .factory name) (v : World K) : FactoryFindsAll p bs what v :=
  fun name hname => absurd hname (h name)

theorem factoryFindsAll_of_mini {bs : List (Registry.Blueprint (Factory K))} (what : Invocation)
    (v : World K) (h : what.isOfMini = true) : FactoryFindsAll p bs what v :=
  .of_not (by rintro name rfl; cases h) v

variable {bs : List (Registry.Blueprint (Factory K))} {ctx : Context} {before after : List (Step K)}
  {s : Step K}

theorem nodup_names_before (hp : p.Sound bs ctx) (hsplit : p.steps = before ++ s :: after) :
    (before.map (·.name)).Nodup ∧ s.name ∉ before.map (·.name) := by
  have hnodup := (List.nodup_append.1 hp.nodup).1
  rw [Registry.Plan.order, hsplit, List.map_append, List.map_cons, List.nodup_append] at hnodup
  exact ⟨hnodup.1, fun hmem => hnodup.2.2 s.name hmem s.name (by simp) rfl⟩

theorem Boarded.findsAll (hp : p.Sound bs ctx) (hbs : (bs.map (·.name)).Nodup)
    (h : Boarded p before before w) (hsplit : p.steps = before ++ s :: after) :
    FindsAll p bs before s w where
  order := h.order
  reports := h.reports
  needs n hn := by
    have hmem : n ∈ before.map (·.name) := hp.needsFirst before s after hsplit n hn
    exact ⟨hmem, h.exists_member (nodup_names_before hp hsplit).1 hmem⟩
  declared b hb hname d hd := by
    have hdep := hp.dependencies hbs (s := s) (by simp [hsplit]) hb hname hd
    have hmem : Registry.dealias p.aliases d ∈ before.map (·.name) :=
      hp.needsFirst before s after hsplit _ (List.mem_append_left _ hdep)
    obtain ⟨m, hm, hhouses⟩ := h.exists_member (nodup_names_before hp hsplit).1 hmem
    refine ⟨hmem, m.cell, ?_, hhouses⟩
    rw [Roster.find, Roster.dealias, h.aliases, hm]

def bootCalls (m : Member) : List Invocation := [.factory m.name, .build m.cell .boot]

/-- How booting some steps after others ends: with all of them, with one whose factory fails, or
with one whose first build pass aborts. The members are those that were there before and one for
each step that was made. -/
inductive Booted (p : Registry.Plan (Factory K)) (before rest : List (Step K)) (old : List Member)
    (calls : Calls K) (w : World K) : Except Fault Unit → Prop
  | all {new : List Member} (board : Boarded p (before ++ rest) (before ++ rest) w)
      (members : w.roster.members = old ++ new)
      (trace : ofMembers calls = new.flatMap bootCalls) : Booted p before rest old calls w (.ok ())
  | unmade {mid after : List (Step K)} {s : Step K} {new : List Member} {u : World K}
      {fault : Fault} (split : rest = mid ++ s :: after)
      (board : Boarded p (before ++ mid) (before ++ mid) w)
      (members : w.roster.members = old ++ new)
      (trace : ofMembers calls = new.flatMap bootCalls ++ [.factory s.name])
      (called : (.factory s.name, u) ∈ calls)
      (product : (s.factory ⟨s.name, u⟩).product = .error fault) :
      Booted p before rest old calls w (.error fault)
  | aborted {mid after : List (Step K)} {s : Step K} {new : List Member} {report : Report}
      (split : rest = mid ++ s :: after)
      (board : Boarded p (before ++ mid ++ [s]) (before ++ mid) w)
      (members : w.roster.members = old ++ new)
      (trace : ofMembers calls = new.flatMap bootCalls)
      (component : report.component = s.name) (token : report.token = .boot)
      (fatal : report.outcome.isFatal = true) :
      Booted p before rest old calls w (.error (.buildAborted s.name (report.message.getD "")))

theorem Booted.cons {rest : List (Step K)} {old : List Member} {m : Member}
    {first later : Calls K} {r : Except Fault Unit}
    (hfirst : ofMembers first = bootCalls m)
    (h : Booted p (before ++ [s]) rest (old ++ [m]) later w r) :
    Booted p before (s :: rest) old (first ++ later) w r := by
  have hassoc : ∀ tail : List (Step K), before ++ [s] ++ tail = before ++ s :: tail := by simp
  have htrace : ∀ (new : List Member) (last : List Invocation),
      ofMembers later = new.flatMap bootCalls ++ last →
        ofMembers (first ++ later) = (m :: new).flatMap bootCalls ++ last := by
    intro new last hlater
    rw [ofMembers_append, hfirst, hlater, List.flatMap_cons, List.append_assoc]
  have hmembers : ∀ {new : List Member}, w.roster.members = old ++ [m] ++ new →
      w.roster.members = old ++ m :: new := fun h => by rw [h, List.append_assoc]; rfl
  cases h with
  | @all new board members trace =>
    rw [hassoc] at board
    refine .all board (hmembers members) ?_
    simpa using htrace new [] (by simpa using trace)
  | @unmade mid after s' new u fault split board members trace called product =>
    have hsplit : s :: rest = (s :: mid) ++ s' :: after := by rw [split]; rfl
    rw [hassoc] at board
    exact .unmade hsplit board (hmembers members) (htrace new _ trace)
      (List.mem_append_right _ called) product
  | @aborted mid after s' new report split board members trace component token fatal =>
    have hsplit : s :: rest = (s :: mid) ++ s' :: after := by rw [split]; rfl
    rw [hassoc] at board
    refine .aborted hsplit board (hmembers members) ?_ component token fatal
    simpa using htrace new [] (by simpa using trace)

theorem Booted.error {fault : Fault} {rest : List (Step K)} {old : List Member} {calls : Calls K}
    (h : Booted p before [s] old calls v (.error fault)) (hw : World.Keeps (fun _ => True) v w) :
    Booted p before (s :: rest) old calls w (.error fault) := by
  have hhead : ∀ {mid after : List (Step K)} {s' : Step K}, [s] = mid ++ s' :: after →
      s :: rest = mid ++ s' :: rest := by
    intro mid after s' hsplit
    obtain ⟨rfl, rfl⟩ : mid = [] ∧ s = s' := by
      rcases mid with _ | ⟨x, mid⟩ <;> simp_all
    rfl
  cases h with
  | unmade split board members trace called product =>
    exact .unmade (hhead split) (board.keeps hw) (by rw [hw.roster, members]) trace called product
  | aborted split board members trace component token fatal =>
    exact .aborted (hhead split) (board.keeps hw) (by rw [hw.roster, members]) trace component token
      fatal

def Made (p : Registry.Plan (Factory K)) (before : List (Step K)) (s : Step K) (old : List Member)
    (calls : Calls K) (r : Except Fault CellId) (w : World K) : Prop :=
  (∃ fault u, r = .error fault ∧ Boarded p before before w ∧ w.roster.members = old ∧
    calls = [(.factory s.name, u)] ∧ (s.factory ⟨s.name, u⟩).product = .error fault) ∨
  ∃ m, r = .ok m.cell ∧ m.name = s.name ∧ Boarded p (before ++ [s]) before w ∧
    w.roster.members = old ++ [m] ∧ ofMembers calls = [.factory s.name]

theorem meets_make (hp : p.Sound bs ctx) (hbs : (bs.map (·.name)).Nodup)
    (hsplit : p.steps = before ++ s :: after) (h : Boarded p before before w) :
    Meets (founding config (FactoryFindsAll p bs)) (make s)
      (Made p before s w.roster.members) w := by
  refine Meets.invoke fun u hu => ⟨fun name hname => ?_, ?_⟩
  · refine ⟨before, s, after, hsplit, by simpa using hname, ?_⟩
    exact (h.keeps hu).findsAll hp hbs hsplit
  refine Meets.modify fun v hv => ⟨.inl (World.keeps_notes (fun _ => True) _ v).config, ?_⟩
  have hkeeps : World.Keeps (fun _ => True) w ((s.factory ⟨s.name, u⟩).notes.foldl World.note v) :=
    hu.trans (hv.trans (World.keeps_notes _ _ v))
  rcases hproduct : (s.factory ⟨s.name, u⟩).product with fault | product
  · refine Meets.pure fun x hx => .inl ⟨fault, u, rfl, h.keeps (hkeeps.trans hx), ?_, rfl, hproduct⟩
    exact congrArg Roster.members (hkeeps.trans hx).roster
  · refine Meets.getModify fun x hx => ?_
    have hx' := hkeeps.trans hx
    have hfree : ¬ (x.roster.member? s.name).isSome = true := by
      rw [Roster.member?_isSome_iff, (h.keeps hx').names]
      exact (nodup_names_before hp hsplit).2
    simp only [hfree]
    refine ⟨.inl rfl, ?_⟩
    refine Meets.pure fun y hy => .inr
      ⟨⟨s.name, x.cells.size, s.dependencies, s.links, s.isManager⟩, rfl, rfl, ?_, ?_, rfl⟩
    · exact ((h.keeps hx').join product).keeps hy
    · have hmembers : x.roster.members = w.roster.members := congrArg Roster.members hx'.roster
      rw [hy.roster, ← hmembers]
      rfl

theorem Boarded.passed {report : Report} (h : Boarded p joined built w)
    (hname : report.component = s.name) (htoken : report.token = .boot) :
    Boarded p joined (built ++ [s])
      { w with roster := { w.roster with bootReports := w.roster.bootReports ++ [report] } } where
  members := h.members.imp fun _ _ hs =>
    ⟨hs.name, hs.dependencies, hs.links, hs.houses, hs.standing⟩
  cells := h.cells
  order := h.order
  skipped := h.skipped
  aliases := h.aliases
  reports := by
    show (w.roster.bootReports ++ [report]).map _ = _
    rw [List.map_append, h.reports, List.map_append, List.map_singleton, List.map_singleton, hname,
      htoken]

theorem meets_boot (hp : p.Sound bs ctx) (hbs : (bs.map (·.name)).Nodup)
    (hsplit : p.steps = before ++ s :: after) (h : Boarded p before before w) :
    Meets (founding config (FactoryFindsAll p bs)) (boot s) (fun calls r v =>
      Booted p before [s] w.roster.members calls v (r.map fun _ => ())) w := by
  have hone : [s] = ([] : List (Step K)) ++ s :: [] := rfl
  refine Meets.seq (meets_make hp hbs hsplit h) fun first r v _ hmade => ?_
  rcases hmade with ⟨fault, u, rfl, board, members, rfl, product⟩ |
    ⟨m, rfl, hname, board, members, trace⟩
  · refine Meets.pure fun x hx => ?_
    have hboard : Boarded p (before ++ []) (before ++ []) x := by
      rw [List.append_nil]
      exact board.keeps hx
    have hmembers : x.roster.members = w.roster.members ++ [] := by
      rw [hx.roster, members, List.append_nil]
    exact .unmade hone hboard hmembers rfl (by simp) product
  · obtain ⟨s', -, hs'⟩ := exists_left_of_forall₂ (b := m) board.members (by simp [members])
    have hhouses : v.Houses m.cell s.name := hname.symm.trans hs'.name ▸ hs'.houses
    have hbuild : Meets (sparing (fun _ => True) (FactoryFindsAll p bs)) (Cell.build m.cell .boot)
        (fun calls r _ => Cell.CallsOf (.build m.cell .boot) m.cell v (ofMembers calls) ∧
          ∃ name, Answers name .boot r ∧ ∀ n, v.Houses m.cell n → name = n) v :=
      Cell.meets_build (hosts_sparing factoryFindsAll_of_mini) .boot fun x _ => .of_not (by simp) x
    refine Meets.seq (founding_of_sparing hbuild) fun second r x _ hbuilt => ?_
    obtain ⟨hx, hcallsOf, n, hanswer, hn⟩ := hbuilt
    obtain rfl := hn s.name hhouses
    have htrace : ofMembers second = [.build m.cell .boot] := hcallsOf.of_houses hhouses
    have hmembers : x.roster.members = w.roster.members ++ [m] := by rw [hx.roster, members]
    have hcalls : ofMembers (first ++ (second ++ [])) = [m].flatMap bootCalls := by
      rw [List.append_nil, ofMembers_append, trace, htrace, List.flatMap_singleton, bootCalls,
        hname]
      rfl
    rcases r with fault | report
    · obtain ⟨report, hcomponent, htoken, hfatal, rfl⟩ := hanswer.of_error
      refine Meets.pure fun y hy => ?_
      have hboard : Boarded p (before ++ [] ++ [s]) (before ++ []) y := by
        rw [List.append_nil]
        exact board.keeps (hx.trans hy)
      have hmembers' : y.roster.members = w.roster.members ++ [m] := by rw [hy.roster, hmembers]
      exact .aborted hone hboard hmembers' hcalls hcomponent htoken hfatal
    · obtain ⟨hcomponent, htoken, -⟩ := hanswer.of_ok
      refine Meets.modify fun y hy => ⟨.inl rfl, Meets.pure fun z hz => ?_⟩
      have hboard := (board.keeps (hx.trans hy)).passed hcomponent htoken
      have hmembers' : z.roster.members = w.roster.members ++ [m] := by
        rw [hz.roster, ← hmembers, ← hy.roster]
      exact .all (hboard.keeps hz) hmembers' hcalls

theorem meets_bootAll (hp : p.Sound bs ctx) (hbs : (bs.map (·.name)).Nodup) {rest : List (Step K)}
    (hsplit : p.steps = before ++ rest) (h : Boarded p before before w) :
    Meets (founding config (FactoryFindsAll p bs)) (bootAll rest)
      (fun calls r v => Booted p before rest w.roster.members calls v r) w := by
  induction rest generalizing before w with
  | nil =>
    refine Meets.pure fun v hv => ?_
    have hboard : Boarded p (before ++ []) (before ++ []) v := by
      rw [List.append_nil]
      exact h.keeps hv
    have hmembers : v.roster.members = w.roster.members ++ [] := by rw [hv.roster, List.append_nil]
    exact .all hboard hmembers rfl
  | cons s rest ih =>
    refine Meets.seq (meets_boot hp hbs hsplit h) fun first r v _ hfirst => ?_
    rcases r with fault | report
    · refine Meets.pure fun u hu => ?_
      rw [List.append_nil]
      exact hfirst.error hu
    · cases hfirst with
      | @all new board members trace =>
        have hsplit' : p.steps = (before ++ [s]) ++ rest := by rw [hsplit]; simp
        refine (ih hsplit' board).mono fun later r u hlater => ?_
        obtain ⟨m, rfl⟩ : ∃ m, new = [m] := by
          have hold := h.members.length_eq
          have hnew := board.members.length_eq
          rw [members, List.length_append, List.length_append, List.length_singleton] at hnew
          exact List.length_eq_one_iff.1 (by omega)
        rw [members] at hlater
        exact hlater.cons (by simpa using trace)

end Fleet

end Steward
