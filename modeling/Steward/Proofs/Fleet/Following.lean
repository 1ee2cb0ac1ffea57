import Steward.Proofs.Fleet.Roster
import Steward.Proofs.Link.Route
/-!
Whom a pass over a running fleet comes to. Going down it takes every link that a member has, but
going up it looks at the first link that a member has onto another one. A member that is linked to
another one more than once may therefore go down to it over a later link, and not be come to from
it.
-/
namespace Steward

open Steward.Action

variable {K : Kit}

/-- The first link onto another component is one that the operation follows. -/
def Member.Heeds (m : Member) (op : Link.Operation) (name : String) : Prop :=
  ∃ l, (m.links.find? fun l => l.target == name) = some l ∧ op.follows l = true

/-- Of links onto another component some is followed, and still the component is not heeded, only
if one before it is not followed. -/
theorem Member.heeds_or_earlier {m : Member} {op : Link.Operation} {l : Link} (hl : l ∈ m.links)
    (hfollows : op.follows l = true) :
    m.Heeds op l.target ∨ ∃ before l' after, m.links = before ++ l' :: after ∧ l ∈ after ∧
      l'.target = l.target ∧ op.follows l' = false := by
  have hsome : (m.links.find? fun l' => l'.target == l.target).isSome = true :=
    List.find?_isSome.2 ⟨l, hl, by simp⟩
  obtain ⟨l', hfind⟩ := Option.isSome_iff_exists.1 hsome
  obtain ⟨htarget, before, after, hsplit, hbefore⟩ := List.find?_eq_some_iff_append.1 hfind
  rcases hfollows' : op.follows l' with _ | _
  · refine .inr ⟨before, l', after, hsplit, ?_, by simpa using htarget, hfollows'⟩
    rw [hsplit, List.mem_append, List.mem_cons] at hl
    rcases hl with hl | rfl | hl
    · simpa using hbefore l hl
    · rw [hfollows] at hfollows'
      cases hfollows'
    · exact hl
  · exact .inl ⟨l', hfind, hfollows'⟩

namespace Roster

variable {r : Roster} {op : Link.Operation} {a b : String}

theorem ties_topology_iff :
    r.topology.Ties op a b ↔
      ∃ m, r.member? a = some m ∧ ∃ l ∈ m.links, op.follows l = true ∧ l.target = b := by
  rcases hm : r.member? a with _ | m <;> simp [Link.Topology.Ties, topology, hm]

theorem Ordered.trails_topology_iff (h : r.Ordered) :
    r.topology.Trails op a b ↔ ∃ m, r.member? b = some m ∧ m.Heeds op a := by
  constructor
  · rintro ⟨f, hf, hfollows, rfl⟩
    obtain ⟨candidate, -, hf⟩ := List.mem_filterMap.1 hf
    obtain ⟨m, hm, hf⟩ := Option.bind_eq_some_iff.1 hf
    obtain ⟨l, hl, hf⟩ := Option.bind_eq_some_iff.1 hf
    cases hf
    exact ⟨m, hm, l, hl, hfollows⟩
  · rintro ⟨m, hm, l, hl, hfollows⟩
    refine ⟨(b, l), List.mem_filterMap.2 ⟨b, ?_, ?_⟩, hfollows, rfl⟩
    · rw [h.mem_order_iff, hm]
      rfl
    · rw [hm, Option.bind_eq_bind, Option.bind_some, hl]
      rfl

end Roster

namespace Fleet

variable {op : Link.Operation} {v w : World K}

theorem visited_runVisits (visits : List (Link.Visit CellId)) (before : Link.Propagation) :
    Meets steady (Link.runVisits (K := K) op visits before) (fun _ r _ =>
      ∀ p, r = .ok p → p.visited = before.visited ++ visits.map (·.name)) w := by
  induction visits generalizing before w with
  | nil =>
    refine Meets.pure fun _ _ p hp => ?_
    rw [← Except.ok.inj hp, List.map_nil, List.append_nil]
  | cons visit visits ih =>
    refine Meets.seq (Steady.visit op visit w) fun _ r u _ _ => ?_
    cases r with
    | error fault => exact Meets.pure fun _ _ _ hp => by cases hp
    | ok reports =>
      refine (ih _).mono fun _ r _ hr p hp => ?_
      rw [hr p hp, List.append_assoc]
      rfl

theorem visited_spread (t : Link.Topology CellId) (start : String) (token : Token) :
    Meets steady (Link.spread (K := K) t op start token) (fun _ r _ => ∀ p, r = .ok p →
      (Link.route t op start token).fault = none ∧
        p.visited = (Link.route t op start token).visits.map (·.name)) w := by
  refine Meets.seq (visited_runVisits _ {}) fun _ r u _ hr => ?_
  split
  · rename_i p hfault
    refine Meets.pure fun _ _ q hq => ⟨hfault, ?_⟩
    rw [← Except.ok.inj hq, hr p rfl]
    rfl
  · exact Meets.pure fun _ _ _ hq => by cases hq
  · exact Meets.pure fun _ _ _ hq => by cases hq

def VisitsReached (w : World K) (op : Link.Operation) (name : String)
    (r : Except Fault Link.Propagation) : Prop :=
  ∀ p, r = .ok p → ∀ n, n ∈ p.visited ↔ w.roster.topology.Reaches op (w.roster.dealias name) n

theorem meets_spreadFrom (hw : w.roster.Ordered) (name : String) (token : Token) :
    Meets steady (spreadFrom op name token) (fun _ r _ => VisitsReached w op name r) w := by
  refine Meets.get fun v hv => ?_
  rw [hv.roster]
  dsimp only
  split
  · exact Meets.pure fun _ _ _ hp => by cases hp
  · refine (visited_spread _ _ token).mono fun _ r _ hr p hp n => ?_
    obtain ⟨hfault, hvisited⟩ := hr p hp
    rw [hvisited]
    exact (Link.covers_route hw.complete_topology hfault).mem_iff n

/-- What is asked of a fleet when an operation is to spread from a component. -/
def conduct (op : Link.Operation) (name : String) (token : Token) :
    Action K (Except Fault Link.Propagation) :=
  match op with
  | .build => rebuild name token
  | .destroy => destroy name

theorem meets_conduct (hw : w.roster.Ordered) (name : String) (token : Token) :
    Meets steady (conduct op name token) (fun _ r _ => VisitsReached w op name r) w := by
  cases op with
  | destroy => exact meets_spreadFrom hw name .admin
  | build =>
    refine Meets.seq (meets_spreadFrom hw name token) fun _ r u _ hr => ?_
    exact (meets_checkAbort r).mono fun _ s _ hs => hs ▸ hr

/-- In a fleet that was started and attended to in any way, and as long as others leave it as it is,
a rebuild or a teardown that succeeds has visited just what its start leads to: from a component to
the targets of its links that are followed, and to the members whose first link onto it is followed.
So every member with a link onto a visited component that is followed has been visited, unless an
earlier link of it onto the same component is not followed. -/
theorem pass_heeds_first_links {registry : Registry K}
    {ds : List (Registry.Descriptor (Factory K))} {config : Config} {u : World K} {name : String}
    {token : Token} {p : Link.Propagation} {calls : Calls K}
    (hregistry : Registry.empty.registerAll ds = .ok registry)
    (hfounded : Founded registry config u) (huv : Attended u v)
    (run : Runs (World.Keeps fun _ => False) (conduct op name token) v calls (.done (.ok p)) w) :
    (∀ n, n ∈ p.visited ↔ Relation.ReflTransGen (fun a b =>
      (∃ m, v.roster.member? a = some m ∧
        ∃ l ∈ m.links, op.follows l = true ∧ l.target = b) ∨
      ∃ m, v.roster.member? b = some m ∧ m.Heeds op a) (v.roster.dealias name) n) ∧
    ∀ m ∈ v.roster.members, ∀ l ∈ m.links, op.follows l = true → l.target ∈ p.visited →
      m.name ∈ p.visited ∨ ∃ before l' after, m.links = before ++ l' :: after ∧ l ∈ after ∧
        l'.target = l.target ∧ op.follows l' = false := by
  have hr : registry.names.Nodup := Registry.nodup_names_registerAll hregistry List.nodup_nil
  obtain ⟨plan, hplan, board⟩ := hfounded.boarded hr
  have hv : v.roster.Ordered := huv.advances.ordered (board.ordered hplan)
  have hvisited := run.ends (meets_conduct hv name token) p rfl
  refine ⟨fun n => (hvisited n).trans ?_, fun m hm l hl hfollows htarget => ?_⟩
  · have hleads : v.roster.topology.Leads op = fun a b =>
        (∃ m, v.roster.member? a = some m ∧ ∃ l ∈ m.links, op.follows l = true ∧ l.target = b) ∨
        ∃ m, v.roster.member? b = some m ∧ m.Heeds op a :=
      funext fun a => funext fun b =>
        propext (or_congr Roster.ties_topology_iff hv.trails_topology_iff)
    rw [Link.Topology.Reaches, hleads]
  · refine (Member.heeds_or_earlier hl hfollows).imp_left fun hheeds => ?_
    have hnames : (v.roster.members.map (·.name)).Nodup := hv.names ▸ hv.nodup
    have htrails : v.roster.topology.Trails op l.target m.name :=
      hv.trails_topology_iff.2 ⟨m, Roster.member?_of_mem hnames hm, hheeds⟩
    exact (hvisited _).2 (((hvisited _).1 htarget).tail (.inr htrails))

/-- A cache that is linked to the store twice: the first link is only followed by teardowns, the
second one only by builds. -/
def twiceLinked : Registry.Descriptor (Factory Rehearsal.kit) :=
  { idle "cache" [] with
    links := [{ target := "store", toBuild := false, toDestroy := true }, { target := "store" }] }

def storeAndTwiceLinked : Registry Rehearsal.kit := ⟨[idle "store" [], twiceLinked]⟩

theorem registerAll_storeAndTwiceLinked :
    Registry.empty.registerAll [idle "store" [], twiceLinked] = .ok storeAndTwiceLinked := rfl

theorem exists_run_of_visited (op : Link.Operation) (name : String) (token : Token)
    {visited : List String} (v : World K)
    (h : (alone (conduct op name token) v).map (·.2.1.toOption.map (·.visited)) =
      some (some visited)) :
    ∃ p calls w, Runs (World.Keeps fun _ => False) (conduct op name token) v calls
      (.done (.ok p)) w ∧ p.visited = visited := by
  obtain ⟨⟨calls, r, w⟩, hrun, hr⟩ := Option.map_eq_some_iff.1 h
  cases r with
  | error fault => cases hr
  | ok p => exact ⟨p, calls, w, runs_alone hrun, Option.some.inj hr⟩

theorem pass_heeds_first_links_twiceLinked :
    let u := after (start storeAndTwiceLinked {}) {}
    ∃ p calls w, Runs (World.Keeps fun _ => False) (conduct .destroy "store" .admin) u calls
        (.done (.ok p)) w ∧ p.visited = ["store", "cache"] ∧
      ∀ m ∈ u.roster.members, ∀ l ∈ m.links, l.toDestroy = true → l.target ∈ p.visited →
        m.name ∈ p.visited ∨ ∃ before l' after, m.links = before ++ l' :: after ∧ l ∈ after ∧
          l'.target = l.target ∧ l'.toDestroy = false := by
  intro u
  have hu : Founded storeAndTwiceLinked {} u := founded_after rfl
  have hvisits : (alone (conduct .destroy "store" .admin) u).map
      (·.2.1.toOption.map (·.visited)) = some (some ["store", "cache"]) := by decide +kernel
  obtain ⟨p, calls, w, run, hvisited⟩ := exists_run_of_visited _ _ _ _ hvisits
  exact ⟨p, calls, w, run, hvisited,
    (pass_heeds_first_links registerAll_storeAndTwiceLinked hu .refl run).2⟩

/-- The store is rebuilt without the cache, though a link of the cache onto it says otherwise. -/
theorem pass_may_miss_follower :
    ¬ ∀ (u w : World Rehearsal.kit) (name : String) (p : Link.Propagation)
        (calls : Calls Rehearsal.kit), Founded storeAndTwiceLinked {} u →
      Runs (World.Keeps fun _ => False) (conduct .build name .admin) u calls (.done (.ok p)) w →
      ∀ m ∈ u.roster.members, ∀ l ∈ m.links, l.toBuild = true → l.target = name →
        m.name ∈ p.visited := by
  intro hall
  have hcache : ⟨"cache", 1, [], twiceLinked.links, false⟩ ∈
      (after (start storeAndTwiceLinked {}) {}).roster.members := by decide +kernel
  have hvisits : (alone (conduct .build "store" .admin)
      (after (start storeAndTwiceLinked {}) {})).map (·.2.1.toOption.map (·.visited)) =
        some (some ["store"]) := by decide +kernel
  obtain ⟨p, calls, w, run, hvisited⟩ := exists_run_of_visited _ _ _ _ hvisits
  have hmem := hall _ w "store" p calls (founded_after rfl) run _ hcache { target := "store" }
    (by decide) rfl rfl
  rw [hvisited] at hmem
  exact absurd hmem (by decide)

end Fleet

end Steward
