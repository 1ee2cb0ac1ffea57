import Steward.Proofs.Cell.Hooks
/-!
Building and destroying cells. A build pass on a component runs its hooks once and answers with a
report of its own or with the fault of an abort; tearing a component down runs the hook that does
so once, unless that was done before. On the way mini-services may be built and destroyed.
-/
namespace Steward

open Steward.Action

variable {K : Kit}

/-- What a build pass answers: a report of its own, or, if it aborts, the fault of that. -/
def Answers (name : String) (token : Token) (r : Except Fault Report) : Prop :=
  ∃ report : Report, report.component = name ∧ report.token = token ∧
    r = if report.outcome.isFatal then .error (.buildAborted name (report.message.getD ""))
      else .ok report

theorem Answers.of_ok {name : String} {token : Token} {report : Report}
    (h : Answers name token (.ok report)) :
    report.component = name ∧ report.token = token ∧ report.outcome.isFatal = false := by
  obtain ⟨report', hname, htoken, hr⟩ := h
  split at hr
  · cases hr
  · rename_i hfatal
    obtain rfl := Except.ok.inj hr
    exact ⟨hname, htoken, Bool.eq_false_iff.2 hfatal⟩

theorem Answers.of_error {name : String} {token : Token} {fault : Fault}
    (h : Answers name token (.error fault)) :
    ∃ report : Report, report.component = name ∧ report.token = token ∧
      report.outcome.isFatal = true ∧ fault = .buildAborted name (report.message.getD "") := by
  obtain ⟨report, hname, htoken, hr⟩ := h
  split at hr
  · rename_i hfatal
    exact ⟨report, hname, htoken, hfatal, Except.error.inj hr⟩
  · cases hr

namespace World

variable {spared : CellId → Prop} {v w : World K} {id : CellId}

theorem KeepsCells.holdsMini (h : KeepsCells spared v w) (hid : v.holdsMini id = true) :
    w.holdsMini id = true := by
  obtain ⟨c, hc, hmini⟩ := (Option.any_eq_true _ _).1 hid
  obtain ⟨d, hd, hcd⟩ := h id c hc
  rw [World.holdsMini, hd]
  exact hcd.isMini.trans hmini

theorem Houses.name_eq {name : String} (h : w.Houses id name) :
    ((w.cell? id).map (·.name)).getD "" = name := by
  obtain ⟨c, hc, rfl, -⟩ := h
  rw [hc]
  rfl

end World

namespace Cell

open World

variable {T : Terms K} {spared : CellId → Prop} {w : World K} {id : CellId}

theorem meets_buildWith {run : CellId → Scope → Action K (Scope × Ending)} {token : Token}
    (during : List Invocation → Prop) (hT : Hosts T spared)
    (hrun : ∀ name v, T.own w v →
      Meets T (run id { component := name, token })
        (fun calls _ _ => during (ofMembers calls)) v) :
    Meets T (buildWith run id token) (fun calls r _ => during (ofMembers calls) ∧
      ∃ name, Answers name token r ∧ ∀ n, w.Houses id n → name = n) w := by
  refine Meets.get fun u hu => Meets.acquire (Meets.get fun o ho => Meets.getModify fun v hvo => ?_)
  have hv : T.others u v := T.others_trans ho hvo
  have hbegin : Keeps spared v
      (v.modifyCell id fun c => { c with standing := c.standing.beginBuild }) := keeps_beginBuild
  refine ⟨hT.own hbegin, Meets.seq (hrun _ _ ?_) ?_⟩
  · exact T.own_trans (T.own_of_others hu) (T.own_trans (T.own_of_others hv) (hT.own hbegin))
  · rintro before ⟨asked, ending⟩ v' - hbefore
    refine Meets.get fun x hx => Meets.modify fun y hy => ⟨hT.own (keeps_endBuild _ _ _ _), ?_⟩
    refine Meets.release (Meets.modify fun z hz => ⟨hT.own (keeps_armAfter _), ?_⟩)
    have hname : ∀ n, w.Houses id n → ((v.cell? id).map (·.name)).getD "" = n := fun n hn =>
      ((hT.cells (T.own_trans (T.own_of_others hu) (T.own_of_others hv))).houses hn).name_eq
    have hcalls : during (ofMembers (before ++ [])) := by rwa [List.append_nil]
    split
    · rename_i hfatal
      exact Meets.pure fun _ _ => ⟨hcalls, _, ⟨_, rfl, rfl, (if_pos hfatal).symm⟩, hname⟩
    · rename_i hfatal
      exact Meets.pure fun _ _ => ⟨hcalls, _, ⟨_, rfl, rfl, (if_neg hfatal).symm⟩, hname⟩

theorem meets_destroyWith {tear : CellId → Action K Ending} (during : List Invocation → Prop)
    (hT : Hosts T spared) (hid : spared id → w.holdsMini id = true)
    (htear : ∀ v, T.own w v → Meets T (tear id) (fun calls _ _ => during (ofMembers calls)) v) :
    Meets T (destroyWith tear id) (fun calls _ _ =>
      (during (ofMembers calls) ∨ ofMembers calls = []) ∧
        (w.IsStanding id → (∀ {u v}, T.others u v → KeepsCells (fun _ => True) u v) →
          during (ofMembers calls))) w := by
  refine Meets.modify fun u hu => ⟨hT.own (keeps_cancelTimer u id), ?_⟩
  refine Meets.acquire (Meets.get fun v hv => ?_)
  have hown : T.own w v := T.own_trans (T.own_of_others hu)
    (T.own_trans (hT.own (keeps_cancelTimer u id)) (T.own_of_others hv))
  have hstanding : w.IsStanding id → (∀ {u v}, T.others u v → KeepsCells (fun _ => True) u v) →
      v.IsStanding id := fun hw hothers =>
    ((hothers hu).trans ((keeps_cancelTimer u id).cells.trans (hothers hv))).isStanding trivial hw
  dsimp only
  split
  · rename_i c hc
    split
    · rename_i hdestroyed
      refine Meets.report fun x hx => ⟨hT.own (keeps_report x _), Meets.release ?_⟩
      refine Meets.pure fun y hy => ⟨.inr rfl, fun hw hothers => ?_⟩
      obtain ⟨d, hd, -, hd'⟩ := hstanding hw hothers
      obtain rfl : c = d := Option.some.inj (hc.symm.trans hd)
      rw [hdestroyed] at hd'
      exact Bool.noConfusion hd'
    · refine Meets.modify fun x hx => ⟨hT.own keeps_beginDestroy, ?_⟩
      have hx' : T.own w
          (x.modifyCell id fun c => { c with standing := c.standing.beginDestroy }) :=
        T.own_trans hown (T.own_trans (T.own_of_others hx) (hT.own keeps_beginDestroy))
      refine Meets.seq (htear _ hx') fun before ending y hy hbefore => ?_
      refine Meets.modify fun z hz => ⟨hT.own (keeps_endDestroy ending fun hs => ?_), ?_⟩
      · have hz' : T.own w z := T.own_trans hx' (T.own_trans hy (T.own_of_others hz))
        exact (hT.cells hz').holdsMini (hid hs)
      · refine Meets.release (Meets.pure fun _ _ => ?_)
        have hcalls : during (ofMembers (before ++ [])) := by rwa [List.append_nil]
        exact ⟨.inl hcalls, fun _ _ => hcalls⟩
  · rename_i hc
    refine Meets.pure fun y hy => ⟨.inr rfl, fun hw hothers => ?_⟩
    obtain ⟨d, hd, -⟩ := hstanding hw hothers
    simp [hc] at hd

theorem quiet_buildMini (hT : Hosts T spared) (token : Token) : Quiet T (buildMini id token) w :=
  (meets_buildWith (· = []) hT fun _ _ _ => quiet_passMini hT.lends _).mono fun _ _ _ h => h.1

theorem quiet_destroyMini (hT : Hosts T spared) (hid : w.holdsMini id = true) :
    Quiet T (destroyMini id) w :=
  (meets_destroyWith (· = []) hT (fun _ => hid) fun _ _ => quiet_tearMini hT.lends).mono
    fun _ _ _ h => h.1.elim (fun h => h) fun h => h

theorem quiet_carryPool (hT : Hosts T spared) (call : PoolHook.Call K.Mini) :
    Quiet T (carryPool call) w := by
  cases call with
  | plain call => exact quiet_carry hT.lends call
  | report notice => exact quiet_report hT.lends notice
  | enroll name mini =>
    exact Meets.of_bind_pure (Meets.getModify fun v _ =>
      ⟨hT.own (keeps_addCell v _), Quiet.pure _⟩)
  | build cell token =>
    exact Meets.get fun v _ =>
      Quiet.ite (fun _ => quiet_buildMini hT token) fun _ => Quiet.pure _
  | destroy cell =>
    exact Meets.get fun v _ =>
      Quiet.ite (fun hmini => quiet_destroyMini hT hmini) fun _ => Quiet.pure _

def CallsOf (what : Invocation) (id : CellId) (w : World K) (calls : List Invocation) : Prop :=
  calls = [what] ∨ calls = [] ∧ ∀ n, ¬ w.Houses id n

theorem CallsOf.of_keeps {what : Invocation} {calls : List Invocation} {v : World K}
    (h : CallsOf what id v calls) (hv : KeepsCells spared w v) : CallsOf what id w calls :=
  h.imp_right fun hnone => ⟨hnone.1, fun n hn => hnone.2 n (hv.houses hn)⟩

theorem CallsOf.of_houses {what : Invocation} {calls : List Invocation} {name : String}
    (h : CallsOf what id w calls) (hw : w.Houses id name) : calls = [what] :=
  h.resolve_right fun hnone => hnone.2 name hw

theorem exists_service {name : String} (h : w.Houses id name) :
    ∃ s, (w.cell? id).map (·.inner) = some (.service s) := by
  obtain ⟨c, hc, -, hservice⟩ := h
  rw [hc, Option.map_some]
  cases h : c.inner with
  | service s => exact ⟨s, rfl⟩
  | mini m => simp [Cell.isMini, h] at hservice

theorem exists_houses {s : K.Service} (h : (w.cell? id).map (·.inner) = some (.service s)) :
    ∃ n, w.Houses id n := by
  obtain ⟨c, hc, hs⟩ := Option.map_eq_some_iff.1 h
  exact ⟨c.name, c, hc, rfl, by rw [Cell.isMini, hs]⟩

theorem meets_onService {α : Type} {what : Invocation} {p : K.Service → Action K α} {q : Action K α}
    (hwhat : what.isOfMini = false) (hmay : ∀ v, T.own w v → T.may what v)
    (hp : ∀ s v, T.own w v → (v.cell? id).map (·.inner) = some (.service s) →
      ∀ u, T.own v u → Quiet T (p s) u)
    (hq : ∀ v, T.own w v → Quiet T q v) :
    Meets T (do
        match ← inner? id with
        | some (.service s) =>
          invoke what fun _ => ()
          p s
        | _ => q) (fun calls _ _ => ∃ v, T.own w v ∧ CallsOf what id v (ofMembers calls)) w := by
  refine Meets.get fun u hu => ?_
  have hwu : T.own w u := T.own_of_others hu
  split
  · rename_i s hinner
    refine Meets.invoke fun x hx => ⟨hmay x (T.own_of_others (T.others_trans hu hx)), ?_⟩
    exact (hp s u hwu hinner x (T.own_of_others hx)).mono fun calls _ _ hcalls =>
      ⟨u, hwu, .inl (by simp [hwhat, hcalls])⟩
  · rename_i hnone
    refine (hq u hwu).mono fun calls _ _ hcalls => ⟨u, hwu, .inr ⟨hcalls, fun n hn => ?_⟩⟩
    obtain ⟨s, hs⟩ := exists_service hn
    exact hnone s hs

theorem meets_pass_of (hT : Lends T) (scope : Scope)
    (hmay : ∀ v, T.own w v → T.may (.build id scope.token) v)
    (hpool : ∀ v, T.own w v → (∃ n, v.Houses id n) →
      ∀ call u, T.own v u → Quiet T (carryPool call) u) :
    Meets T (pass id scope) (fun calls _ _ =>
      ∃ v, T.own w v ∧ CallsOf (.build id scope.token) id v (ofMembers calls)) w := by
  refine meets_onService rfl hmay (fun s v hv hinner u hu => ?_) fun v _ => quiet_passMini hT scope
  obtain ⟨c, hc, hlike⟩ := isMini_of_inner hinner
  refine .bind (.interpret _ fun call x hx =>
    hpool v hv (exists_houses hinner) call x (T.own_trans hu hx))
    fun ⟨s', scope', ending⟩ x hx => ?_
  exact .bind (quiet_putBack hT hc hlike (T.own_trans hu hx)) fun _ _ _ => .pure _

theorem meets_tear_of (hT : Lends T) (hmay : ∀ v, T.own w v → T.may (.destroy id) v)
    (hpool : ∀ v, T.own w v → (∃ n, v.Houses id n) →
      ∀ call u, T.own v u → Quiet T (carryPool call) u) :
    Meets T (tear id) (fun calls _ _ =>
      ∃ v, T.own w v ∧ CallsOf (.destroy id) id v (ofMembers calls)) w := by
  refine meets_onService rfl hmay (fun s v hv hinner u hu => ?_) fun v _ => quiet_tearMini hT
  obtain ⟨c, hc, hlike⟩ := isMini_of_inner hinner
  refine .bind (.interpret _ fun call x hx =>
    hpool v hv (exists_houses hinner) call x (T.own_trans hu hx)) fun ⟨s', ending⟩ x hx => ?_
  exact .bind (quiet_putBack hT hc hlike (T.own_trans hu hx)) fun _ _ _ => .pure _

theorem meets_pass (hT : Hosts T spared) (scope : Scope)
    (hmay : ∀ v, T.own w v → T.may (.build id scope.token) v) :
    Meets T (pass id scope)
      (fun calls _ _ => CallsOf (.build id scope.token) id w (ofMembers calls)) w :=
  (meets_pass_of hT.lends scope hmay fun _ _ _ call _ _ => quiet_carryPool hT call).mono
    fun _ _ _ ⟨_, hv, hcalls⟩ => hcalls.of_keeps (hT.cells hv)

theorem meets_tear (hT : Hosts T spared) (hmay : ∀ v, T.own w v → T.may (.destroy id) v) :
    Meets T (tear id) (fun calls _ _ => CallsOf (.destroy id) id w (ofMembers calls)) w :=
  (meets_tear_of hT.lends hmay fun _ _ _ call _ _ => quiet_carryPool hT call).mono
    fun _ _ _ ⟨_, hv, hcalls⟩ => hcalls.of_keeps (hT.cells hv)

theorem meets_build (hT : Hosts T spared) (token : Token)
    (hmay : ∀ v, T.own w v → T.may (.build id token) v) :
    Meets T (build id token) (fun calls r _ => CallsOf (.build id token) id w (ofMembers calls) ∧
      ∃ name, Answers name token r ∧ ∀ n, w.Houses id n → name = n) w :=
  meets_buildWith _ hT fun _ _ hv =>
    (meets_pass hT _ fun x hx => hmay x (T.own_trans hv hx)).mono fun _ _ _ hcalls =>
      hcalls.of_keeps (hT.cells hv)

theorem meets_destroy (hT : Hosts T spared) (hid : spared id → w.holdsMini id = true)
    (hmay : ∀ v, T.own w v → T.may (.destroy id) v) :
    Meets T (destroy id) (fun calls _ _ =>
      (CallsOf (.destroy id) id w (ofMembers calls) ∨ ofMembers calls = []) ∧
        (w.IsStanding id → (∀ {u v}, T.others u v → KeepsCells (fun _ => True) u v) →
          CallsOf (.destroy id) id w (ofMembers calls))) w :=
  meets_destroyWith _ hT hid fun _ hv =>
    (meets_tear hT fun x hx => hmay x (T.own_trans hv hx)).mono fun _ _ _ hcalls =>
      hcalls.of_keeps (hT.cells hv)

theorem quiet_setStatus (hT : Hosts T spared) (status : Status) : Quiet T (setStatus id status) w :=
  Meets.acquire (Meets.modify fun _ _ =>
    ⟨hT.own (keeps_assign status), Meets.release (Quiet.pure ())⟩)

end Cell

end Steward
