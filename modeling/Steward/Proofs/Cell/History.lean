import Steward.Proofs.Cell.Sparing
/-!
The history of a cell: what came of each operation on it, one after the other. An operation may be
told to answer what came of it, which changes nothing about it; and it brings the cell from where it
stands to where it says, whatever the hooks do.
-/
namespace Steward

open Steward.Action World

variable {K : Kit}

namespace Cell

/-- What is done to a cell, besides calling it. A tick of its timer is a rotation too. -/
inductive Operation where
  | build (token : Token)
  | destroy
  | setStatus (status : Status)
  | rotate

/-- What came of an operation. -/
inductive Deed where
  /-- A build pass: what its hooks had asked for when they ended, and how they ended. -/
  | built (asked : Scope) (ending : Ending)
  | destroyed
  | assigned (status : Status)
  /-- What was destroyed was destroyed before, or nothing rotated. -/
  | nothing
  deriving DecidableEq

namespace Deed

def ofTick : Rotation.Result → Deed
  | .rotated _ => .assigned .available
  | .storeStatusAdopted status => .assigned status
  | _ => .nothing

end Deed

def buildTold (id : CellId) (token : Token) : Action K Deed := do
  let started ← get (·.now)
  acquire id .write
  let previous ← get fun w => ((w.cell? id).map (·.standing.status)).getD default
  let name ← getModify (fun w => ((w.cell? id).map (·.name)).getD "")
    (·.modifyCell id fun c => { c with standing := c.standing.beginBuild })
  let (asked, ending) ← pass id { component := name, token }
  let scope := { asked with component := name, token }
  let report ← get fun w => scope.report ending (w.now - started) w.wall
  modify (endBuild id scope ending report previous)
  release id
  modify (armAfter id report)
  return .built scope ending

def destroyTold (id : CellId) : Action K Deed := do
  modify (·.cancelTimer id)
  acquire id .write
  match ← get fun w => w.cell? id with
  | some c =>
    if c.standing.destroyed then
      Action.report (.alreadyDestroyed c.name)
      release id
      return .nothing
    else
      modify (·.modifyCell id fun c => { c with standing := c.standing.beginDestroy })
      let ending ← tear id
      modify (endDestroy id ending)
      release id
      return .destroyed
  | none => return .nothing

def buildHeld (run : CellId → Scope → Action K (Scope × Ending)) (id : CellId) (token : Token)
    (started : Nat) : Action K ((String × Report) × Deed) := do
  let previous ← get fun w => ((w.cell? id).map (·.standing.status)).getD default
  let name ← getModify (fun w => ((w.cell? id).map (·.name)).getD "")
    (·.modifyCell id fun c => { c with standing := c.standing.beginBuild })
  let (asked, ending) ← run id { component := name, token }
  let scope := { asked with component := name, token }
  let report ← get fun w => scope.report ending (w.now - started) w.wall
  modify (endBuild id scope ending report previous)
  return ((name, report), .built scope ending)

def buildAfter (id : CellId) (name : String) (report : Report) :
    Action K (Except Fault Report) := do
  modify (armAfter id report)
  if report.outcome.isFatal then
    return .error (.buildAborted name (report.message.getD ""))
  else return .ok report

def destroyHeld (hook : CellId → Action K Ending) (id : CellId) (c : Cell K) : Action K Deed :=
  if c.standing.destroyed then do
    Action.report (.alreadyDestroyed c.name)
    return .nothing
  else do
    modify (·.modifyCell id fun c => { c with standing := c.standing.beginDestroy })
    let ending ← hook id
    modify (endDestroy id ending)
    return .destroyed

def rotateHeld (id : CellId) : Action K Rotation.Result := do
  match ← get fun w => Rotation.undestroyed? w id with
  | some (name, s) => Rotation.tickHeld id name s
  | none => return .cancelled

namespace Operation

def run (op : Operation) (id : CellId) : Action K Unit :=
  match op with
  | .build token => (fun _ => ()) <$> Cell.build id token
  | .destroy => Cell.destroy id
  | .setStatus status => Cell.setStatus id status
  | .rotate => (fun _ => ()) <$> Rotation.tick id

def told (op : Operation) (id : CellId) : Action K Deed :=
  match op with
  | .build token => buildTold id token
  | .destroy => destroyTold id
  | .setStatus status => do
    Cell.setStatus id status
    return .assigned status
  | .rotate => return .ofTick (← Rotation.tick id)

end Operation

/-- Operations on a cell, one after the other. -/
def conduct (id : CellId) (ops : List Operation) : Action K Unit := forM ops (·.run id)

/-- The same operations, with what came of each. -/
def recount (id : CellId) (ops : List Operation) : Action K (List Deed) := ops.mapM (·.told id)

variable {id : CellId}

theorem map_buildTold (id : CellId) (token : Token) :
    (fun _ => ()) <$> (buildTold id token : Action K Deed) = (fun _ => ()) <$> build id token := by
  simp only [buildTold, build, buildWith, map_bind, map_pure, apply_ite, ite_self]

theorem map_destroyTold (id : CellId) :
    (fun _ => ()) <$> (destroyTold id : Action K Deed) = destroy id := by
  simp only [destroyTold, destroy, destroyWith, map_bind]
  refine bind_congr fun _ => bind_congr fun _ => bind_congr fun c => ?_
  cases c with
  | none => rfl
  | some c =>
    dsimp only
    split <;> simp only [map_bind, map_pure, bind_pure_unit]

theorem map_told (op : Operation) (id : CellId) :
    (fun _ => ()) <$> (op.told id : Action K Deed) = op.run id := by
  cases op with
  | build token => exact map_buildTold id token
  | destroy => exact map_destroyTold id
  | setStatus status =>
    simp only [Operation.told, Operation.run, map_bind, map_pure, bind_pure_unit]
  | rotate =>
    simp only [Operation.told, Operation.run, map_bind, map_pure]
    simp only [map_eq_pure_bind]

theorem map_recount (id : CellId) (ops : List Operation) :
    (fun _ => ()) <$> (recount id ops : Action K (List Deed)) = conduct id ops := by
  induction ops with
  | nil => rfl
  | cons op ops ih =>
    rw [conduct, List.forM_cons, ← map_told, ← conduct, ← ih, recount, List.mapM_cons]
    simp only [map_bind, map_pure, bind_map_left]
    simp only [map_eq_pure_bind]
    rfl

theorem buildWith_eq (run : CellId → Scope → Action K (Scope × Ending)) (id : CellId)
    (token : Token) : buildWith run id token = (do
      let started ← get (·.now)
      acquire id .write
      let (done, _) ← buildHeld run id token started
      release id
      buildAfter id done.1 done.2) := by
  simp only [buildWith, buildHeld, buildAfter, bind_assoc, pure_bind]

theorem buildTold_eq (id : CellId) (token : Token) :
    (buildTold id token : Action K Deed) = do
      let started ← get (·.now)
      acquire id .write
      let (done, deed) ← buildHeld pass id token started
      release id
      modify (armAfter id done.2)
      return deed := by
  simp only [buildTold, buildHeld, bind_assoc, pure_bind]

theorem destroyWith_eq (hook : CellId → Action K Ending) (id : CellId) :
    destroyWith hook id = do
      modify (·.cancelTimer id)
      acquire id .write
      match ← get fun w => w.cell? id with
      | some c =>
        let _ ← destroyHeld hook id c
        release id
      | none => return () := by
  unfold destroyWith destroyHeld
  refine bind_congr fun _ => bind_congr fun _ => bind_congr fun c => ?_
  cases c with
  | none => rfl
  | some c =>
    dsimp only
    split <;> simp only [bind_assoc, pure_bind]

theorem destroyTold_eq (id : CellId) :
    (destroyTold id : Action K Deed) = do
      modify (·.cancelTimer id)
      acquire id .write
      match ← get fun w => w.cell? id with
      | some c =>
        let deed ← destroyHeld tear id c
        release id
        return deed
      | none => return .nothing := by
  unfold destroyTold destroyHeld
  refine bind_congr fun _ => bind_congr fun _ => bind_congr fun c => ?_
  cases c with
  | none => rfl
  | some c =>
    dsimp only
    split <;> simp only [bind_assoc, pure_bind]

theorem tick_eq (id : CellId) :
    (Rotation.tick id : Action K Rotation.Result) = do
      acquire id .write
      let result ← rotateHeld id
      release id
      return result := by
  simp only [Rotation.tick, rotateHeld, bind_assoc]
  refine bind_congr fun _ => bind_congr fun found => ?_
  cases found <;> simp only [pure_bind]

/-- All that an operation can do: where the cell stands before, what comes of it, and where the cell
stands then. Nothing is known of a pass but whose it is and why it ran. -/
inductive Does (name : String) : Operation → Standing → Deed → Standing → Prop
  | build {token : Token} {s : Standing} {asked : Scope} (ending : Ending) (elapsedMillis : Nat)
      (finishedAt : Instant) (hname : asked.component = name) (htoken : asked.token = token) :
      Does name (.build token) s (.built asked ending)
        (s.beginBuild.endBuild (asked.report ending elapsedMillis finishedAt) asked.disabled)
  | destroy {s : Standing} (hstanding : s.destroyed = false) :
      Does name .destroy s .destroyed s.beginDestroy.endDestroy
  | destroyAgain {s : Standing} (hdestroyed : s.destroyed = true) :
      Does name .destroy s .nothing s
  | setStatus (s : Standing) (status : Status) :
      Does name (.setStatus status) s (.assigned status) (s.assign status)
  | rotate {s : Standing} (status : Status) (hstanding : s.destroyed = false) :
      Does name .rotate s (.assigned status) (s.assign status)
  | idle (s : Standing) : Does name .rotate s .nothing s

section Meets

variable {w : World K} {face : Face}

def Turns (id : CellId) (op : Operation) (face : Face) (deed : Deed) (w : World K) : Prop :=
  ∃ standing, w.face? id = some { face with standing } ∧
    Does face.name op face.standing deed standing

def Passed (id : CellId) (token : Token) (face : Face) (r : (String × Report) × Deed)
    (w : World K) : Prop :=
  ∃ asked ending elapsedMillis finishedAt, asked.component = face.name ∧ asked.token = token ∧
    r = ((face.name, asked.report ending elapsedMillis finishedAt), .built asked ending) ∧
    w.face? id = some { face with
      standing := face.standing.endBuild (asked.report ending elapsedMillis finishedAt)
        asked.disabled }

theorem Passed.turns {token : Token} {r : (String × Report) × Deed} (h : Passed id token face r w) :
    Turns id (.build token) face r.2 w := by
  obtain ⟨asked, ending, elapsedMillis, finishedAt, hname, htoken, rfl, hw⟩ := h
  exact ⟨_, hw, .build ending elapsedMillis finishedAt hname htoken⟩

theorem meets_buildHeld {run : CellId → Scope → Action K (Scope × Ending)}
    (hrun : ∀ scope v, Meets (minding id) (run id scope) (fun _ _ _ => True) v)
    (hid : w.face? id = some face) (token : Token) (started : Nat) :
    Meets (working id) (buildHeld run id token started) (fun _ r v => Passed id token face r v)
      w := by
  refine Meets.get fun u hu => Meets.getModify fun v hv => ⟨trivial, ?_⟩
  have hface : v.face? id = some face := hv _ (hu _ hid)
  have hname : ((v.cell? id).map (·.name)).getD "" = face.name := by
    obtain ⟨c, hc, rfl⟩ := exists_cell_of_face? hface
    rw [hc]
    rfl
  have hbegin : (v.modifyCell id fun c => { c with standing := c.standing.beginBuild }).face? id =
      some (face.restand Standing.beginBuild) := by
    rw [face?_beginBuild, if_pos rfl, hface, Option.map_some]
  refine Meets.seq (spares_of_minding (hrun _ _)) fun _ ⟨asked, ending⟩ x _ hx => ?_
  refine Meets.get fun y hy => Meets.modify fun z hz => ⟨trivial, Meets.pure fun x' hx' => ?_⟩
  have hz' : z.face? id = some (face.restand Standing.beginBuild) := hz _ (hy _ (hx _ hbegin))
  refine ⟨{ asked with component := face.name, token }, ending, y.now - started, y.wall, rfl, rfl,
    by rw [hname], hx' _ ?_⟩
  rw [face?_endBuild, if_pos rfl, hz', Option.map_some, hname]
  rfl

theorem meets_buildTold (hid : w.face? id = some face) (token : Token) :
    Meets (working id) (buildTold id token) (fun _ deed v => Turns id (.build token) face deed v)
      w := by
  rw [buildTold_eq]
  refine Meets.get fun u hu => Meets.acquire ?_
  refine Meets.seq (meets_buildHeld (fun _ _ => minds_pass _) (hu _ hid) token _)
    fun _ ⟨done, deed⟩ v _ hv => ?_
  obtain ⟨standing, hv, hdoes⟩ := hv.turns
  refine Meets.release (Meets.modify fun x hx => ⟨trivial, Meets.pure fun y hy => ?_⟩)
  exact ⟨standing, hy _ (by rw [face?_armAfter]; exact hx _ hv), hdoes⟩

theorem meets_destroyHeld {hook : CellId → Action K Ending} {c : Cell K}
    (during : Calls K → Prop) (hid : w.face? id = some c.face)
    (hhook : ∀ v, v.face? id = some (c.face.restand Standing.beginDestroy) →
      Meets (minding id) (hook id) (fun calls _ _ => during calls) v) :
    Meets (working id) (destroyHeld hook id c) (fun calls deed v =>
      Turns id .destroy c.face deed v ∧ (c.standing.destroyed = false → during calls)) w := by
  unfold destroyHeld
  split
  · rename_i hdestroyed
    refine Meets.report fun x hx => ⟨trivial, Meets.pure fun y hy => ?_⟩
    refine ⟨⟨_, hy _ (hx _ hid), .destroyAgain hdestroyed⟩, fun hstanding => ?_⟩
    rw [hdestroyed] at hstanding
    exact Bool.noConfusion hstanding
  · rename_i hstanding
    refine Meets.modify fun x hx => ⟨trivial, ?_⟩
    have hbegin : (x.modifyCell id fun c =>
        { c with standing := c.standing.beginDestroy }).face? id =
          some (c.face.restand Standing.beginDestroy) := by
      rw [face?_beginDestroy, if_pos rfl, hx _ hid, Option.map_some]
    refine Meets.seq (working_of_minding (hhook _ hbegin)) fun calls ending y _ ⟨hy, hduring⟩ => ?_
    refine Meets.modify fun z hz => ⟨trivial, Meets.pure fun x' hx' => ?_⟩
    refine ⟨⟨_, hx' _ ?_, .destroy (Bool.eq_false_iff.2 hstanding)⟩, fun _ => ?_⟩
    · rw [face?_endDestroy, if_pos rfl, hz _ (hy _ hbegin), Option.map_some]
      rfl
    · rwa [List.append_nil]

theorem meets_destroyTold (hid : w.face? id = some face) :
    Meets (working id) (destroyTold id) (fun _ deed v => Turns id .destroy face deed v) w := by
  rw [destroyTold_eq]
  refine Meets.modify fun u hu => ⟨trivial, Meets.acquire (Meets.get fun v hv => ?_)⟩
  have hface : v.face? id = some face := hv _ (by rw [face?_cancelTimer]; exact hu _ hid)
  obtain ⟨c, hc, rfl⟩ := exists_cell_of_face? hface
  rw [hc]
  refine Meets.seq (meets_destroyHeld (fun _ => True) hface fun _ _ => minds_tear)
    fun _ deed x _ ⟨⟨standing, hx, hdoes⟩, _⟩ => ?_
  exact Meets.release (Meets.pure fun y hy => ⟨standing, hy _ hx, hdoes⟩)

theorem meets_setStatus (hid : w.face? id = some face) (status : Status) :
    Meets (working id) (Cell.setStatus id status) (fun _ _ v =>
      v.face? id = some (face.restand (·.assign status))) w := by
  refine Meets.acquire (Meets.modify fun u hu => ⟨trivial, Meets.release ?_⟩)
  refine Meets.pure fun v hv => hv _ ?_
  rw [face?_assign, if_pos rfl, hu _ hid, Option.map_some]

theorem meets_tickHeld {name : String} {s : K.Service} (hid : w.face? id = some face)
    (hs : (w.cell? id).map (·.inner) = some (.service s))
    (hstanding : face.standing.destroyed = false) :
    Meets (working id) (Rotation.tickHeld id name s) (fun _ result v =>
      Turns id .rotate face (.ofTick result) v) w := by
  obtain ⟨c, hc, hlike⟩ := isMini_of_inner hs
  have hput : ∀ {s' : K.Service} {u : World K}, Spares id w u →
      Meets (working id) (putBack id (.service s')) (fun _ _ v => Spares id u v) u := fun hu =>
    spares_of_minding (quiet_putBack lends_minding hc hlike hu)
  have hask : Quiet (minding id) ((K.storeStatus s).interpret carry) w :=
    .interpret _ fun call _ _ => quiet_carry lends_minding call
  refine Meets.seq (spares_of_minding hask) fun _ ⟨s', store?⟩ u _ hu => ?_
  cases store? with
  | none =>
    refine Meets.seq (hput hu) fun _ _ x _ hx => Meets.pure fun y hy => ?_
    exact ⟨_, hy _ (hx _ (hu _ hid)), .idle _⟩
  | some store =>
    dsimp only
    split
    · refine Meets.seq (hput hu) fun _ _ x _ hx => Meets.modify fun y hy => ⟨trivial, ?_⟩
      refine Meets.pure fun z hz => ⟨_, hz _ ?_, .rotate store hstanding⟩
      rw [Rotation.face?_adopt, if_pos rfl, hy _ (hx _ (hu _ hid)), Option.map_some]
      rfl
    · refine Meets.seq (spares_of_minding (Rotation.quiet_attempt lends_minding _ _ _ _ _))
        fun _ ⟨s'', finish⟩ x _ hx => ?_
      refine Meets.seq (hput (hu.trans hx)) fun _ _ y _ hy => ?_
      refine Meets.modify fun z hz => ⟨trivial, Meets.pure fun z' hz' => ?_⟩
      have hface : z.face? id = some face := hz _ (hy _ (hx _ (hu _ hid)))
      cases finish with
      | granted credential attempts =>
        refine ⟨_, hz' _ ?_, .rotate .available hstanding⟩
        show (Rotation.install id attempts z).face? id = _
        rw [Rotation.face?_install, if_pos rfl, hface, Option.map_some]
        rfl
      | exhausted attempts message =>
        exact ⟨_, hz' _ ((Rotation.face?_giveUp attempts message z).trans hface), .idle _⟩
      | failed attempts message => exact ⟨_, hz' _ hface, .idle _⟩
      | overflowed => exact ⟨_, hz' _ hface, .idle _⟩
      | panicked => exact ⟨_, hz' _ hface, .idle _⟩

theorem meets_rotateHeld (hid : w.face? id = some face) :
    Meets (working id) (rotateHeld id) (fun _ result v =>
      Turns id .rotate face (.ofTick result) v) w := by
  refine Meets.get fun u hu => ?_
  have hface : u.face? id = some face := hu _ hid
  split
  · rename_i name s hfound
    obtain ⟨c, hc, hs, hstanding⟩ := Rotation.of_undestroyed? hfound
    obtain rfl : c.face = face := Option.some.inj ((face?_of_cell? hc).symm.trans hface)
    exact meets_tickHeld hface (by rw [hc, Option.map_some, hs]) hstanding
  · exact Meets.pure fun x hx => ⟨_, hx _ hface, .idle _⟩

theorem meets_tick (hid : w.face? id = some face) :
    Meets (working id) (Rotation.tick id) (fun _ result v =>
      Turns id .rotate face (.ofTick result) v) w := by
  rw [tick_eq]
  refine Meets.acquire (Meets.seq (meets_rotateHeld hid) fun _ result v _ hv => ?_)
  obtain ⟨standing, hv, hdoes⟩ := hv
  exact Meets.release (Meets.pure fun x hx => ⟨standing, hx _ hv, hdoes⟩)

theorem meets_told (op : Operation) (hid : w.face? id = some face) :
    Meets (working id) (op.told id) (fun _ deed v => Turns id op face deed v) w := by
  cases op with
  | build token => exact meets_buildTold hid token
  | destroy => exact meets_destroyTold hid
  | setStatus status =>
    exact Meets.seq (meets_setStatus hid status) fun _ _ v _ hv =>
      Meets.pure fun u hu => ⟨_, hu _ hv, .setStatus _ status⟩
  | rotate =>
    refine Meets.seq (meets_tick hid) fun _ result v _ hv => Meets.pure fun u hu => ?_
    obtain ⟨standing, hv, hdoes⟩ := hv
    exact ⟨standing, hu _ hv, hdoes⟩

/-- What each operation preserves of a history and of where it leads, a run of them does. -/
theorem meets_recount {P : List Deed → Standing → Prop} {ops : List Operation} {name : String}
    {isMini : Bool} {s : Standing} (before : List Deed)
    (hstep : ∀ op ∈ ops, ∀ history s deed s', P history s → Does name op s deed s' →
      P (history ++ [deed]) s')
    (hid : w.face? id = some ⟨name, isMini, s⟩) (hP : P before s) :
    Meets (working id) (recount id ops) (fun _ history v => ∃ s',
      v.face? id = some ⟨name, isMini, s'⟩ ∧ P (before ++ history) s') w := by
  induction ops generalizing w s before with
  | nil => exact Meets.pure fun v hv => ⟨s, hv _ hid, by simpa using hP⟩
  | cons op ops ih =>
    rw [recount, List.mapM_cons]
    refine Meets.seq (meets_told op hid) fun _ deed v _ ⟨s', hv, hdoes⟩ => ?_
    have hrest := ih (before ++ [deed])
      (fun op' hop' => hstep op' (List.mem_cons_of_mem op hop')) hv
      (hstep op List.mem_cons_self before s deed s' hP hdoes)
    refine Meets.seq hrest fun _ history u _ ⟨s'', hu, hs⟩ => Meets.pure fun x hx => ?_
    exact ⟨s'', hx _ hu, by rwa [List.append_cons]⟩

theorem meets_recount_new {P : List Deed → Standing → Prop} {ops : List Operation} {c : Cell K}
    (hc : w.cell? id = some c) (hnew : c.standing = {})
    (hstep : ∀ op ∈ ops, ∀ history s deed s', P history s → Does c.name op s deed s' →
      P (history ++ [deed]) s') (hP : P [] {}) :
    Meets (working id) (recount id ops) (fun _ history v => ∃ s,
      v.face? id = some ⟨c.name, c.isMini, s⟩ ∧ P history s) w := by
  have hid : w.face? id = some ⟨c.name, c.isMini, {}⟩ := by rw [face?_of_cell? hc, Cell.face, hnew]
  exact meets_recount [] hstep hid hP

end Meets

end Cell

end Steward
