import Midend.Pipeline
import Midend.Proofs.Edit.Ensures
import Midend.Proofs.OrderedMap
import Midend.Proofs.Pipeline.Work
import Midend.Proofs.Program

namespace Midend

open Work

variable {σ α : Type} {mayFail : Prop}

structure FuncView where
  func : Func
  slots : Option SlotAssignment
  tree : Option ControlTree

def Context.view (c : Context) (id : FuncId) (f : Func) : FuncView :=
  ⟨f, c.slots.get? id, c.trees.get? id⟩

def VisitState.view (v : VisitState σ) (id : FuncId) : FuncView := v.context.view id v.func

def RunState.view (s : RunState σ) (id : FuncId) : Option FuncView :=
  s.program.functions[id.index]?.map (s.context.view id)

/-- The contexts differ in the log and in what is stored for one function; no failed verification was
logged. -/
structure Context.Beside (id : FuncId) (c c' : Context) : Prop where
  config : c'.config = c.config
  failures : c'.events.has .verificationFailed = c.events.has .verificationFailed
  slots : ∀ id' ≠ id, c'.slots.get? id' = c.slots.get? id'
  trees : ∀ id' ≠ id, c'.trees.get? id' = c.trees.get? id'

namespace Context.Beside

variable {id : FuncId} {c c' c'' : Context}

theorem refl (id : FuncId) (c : Context) : c.Beside id c :=
  ⟨rfl, rfl, fun _ _ => rfl, fun _ _ => rfl⟩

theorem trans (h : c.Beside id c') (h' : c'.Beside id c'') : c.Beside id c'' :=
  ⟨h'.config.trans h.config, h'.failures.trans h.failures,
    fun id' hne => (h'.slots id' hne).trans (h.slots id' hne),
    fun id' hne => (h'.trees id' hne).trans (h.trees id' hne)⟩

theorem invalidate (id : FuncId) (c : Context) : c.Beside id (c.invalidate id) :=
  ⟨rfl, rfl, fun _ hne => (OrderedMap.get?_erase ..).trans (if_neg hne),
    fun _ hne => (OrderedMap.get?_erase ..).trans (if_neg hne)⟩

end Context.Beside

theorem EventLog.has_record (l : EventLog) (e : Event) (kind : EventKind) :
    (l.record e).has kind = (l.has kind || decide (e.kind = kind)) := by
  simp [EventLog.has, EventLog.record]

/-- Two states of a run with as many functions, one configuration, and the same word on failed
verifications. -/
structure RunState.Like (s t : RunState σ) : Prop where
  size : t.program.size = s.program.size
  config : t.context.config = s.context.config
  failures : t.context.events.has .verificationFailed = s.context.events.has .verificationFailed

structure RunState.Beside (id : FuncId) (s t : RunState σ) : Prop where
  size : t.program.size = s.program.size
  context : s.context.Beside id t.context
  func : ∀ id' ≠ id, t.program.functions[id'.index]? = s.program.functions[id'.index]?

def RunState.All (P : FuncView → Prop) (s : RunState σ) : Prop := ∀ id v, s.view id = some v → P v

namespace RunState

variable {s t u : RunState σ} {id : FuncId} {P : FuncView → Prop}

theorem Like.refl (s : RunState σ) : s.Like s := ⟨rfl, rfl, rfl⟩

theorem Like.trans (h : s.Like t) (h' : t.Like u) : s.Like u :=
  ⟨h'.size.trans h.size, h'.config.trans h.config, h'.failures.trans h.failures⟩

theorem All.imp {Q : FuncView → Prop} (h : s.All P) (hi : ∀ v, P v → Q v) : s.All Q :=
  fun id v hv => hi v (h id v hv)

theorem Beside.like (h : s.Beside id t) : s.Like t := ⟨h.size, h.context.config, h.context.failures⟩

theorem Beside.trans (h : s.Beside id t) (h' : t.Beside id u) : s.Beside id u :=
  ⟨h'.size.trans h.size, h.context.trans h'.context,
    fun id' hne => (h'.func id' hne).trans (h.func id' hne)⟩

theorem Beside.view_of_ne (h : s.Beside id t) {id' : FuncId} (hne : id' ≠ id) :
    t.view id' = s.view id' := by
  unfold view
  rw [h.func id' hne]
  refine congrArg (Option.map · _) (funext fun f => ?_)
  rw [Context.view, h.context.slots id' hne, h.context.trees id' hne, Context.view]

theorem mem_funcIds {p : Program} : id ∈ p.funcIds ↔ id.index < p.size := by
  unfold Program.funcIds
  constructor
  · intro h
    obtain ⟨n, hn, rfl⟩ := List.mem_map.1 h
    exact List.mem_range.1 hn
  · exact fun h => List.mem_map.2 ⟨id.index, List.mem_range.2 h, rfl⟩

theorem funcIds_nodup (p : Program) : p.funcIds.Nodup :=
  List.nodup_range.map fun _ _ h => Handle.mk.inj h

theorem mem_funcIds_of_view {v : FuncView} (h : s.view id = some v) : id ∈ s.program.funcIds := by
  obtain ⟨f, hf, -⟩ := Option.map_eq_some_iff.1 h
  exact mem_funcIds.2 (List.getElem?_eq_some_iff.1 hf).1

/-- A loop over the functions with some of them done. -/
structure Progress (Pre : FuncView → Prop) (Post : FuncId → FuncView → Prop) (done : List FuncId)
    (s t : RunState σ) : Prop where
  like : s.Like t
  after : ∀ id ∈ done, ∀ v, t.view id = some v → Post id v
  before : ∀ id ∉ done, ∀ v, t.view id = some v → Pre v

namespace Progress

variable {Pre : FuncView → Prop} {Post : FuncId → FuncView → Prop} {done : List FuncId}

theorem start (h : s.All Pre) : s.Progress Pre Post [] s :=
  ⟨.refl s, fun _ hmem => absurd hmem List.not_mem_nil, fun id _ v hv => h id v hv⟩

theorem next (h : s.Progress Pre Post done t) {ids rest : List FuncId} (hnodup : ids.Nodup)
    (hsplit : ids = done ++ id :: rest) (hids : ids = s.program.funcIds) :
    ∃ v, t.view id = some v ∧ Pre v := by
  have hmem : id ∈ s.program.funcIds := by
    rw [← hids, hsplit]
    exact List.mem_append_right _ List.mem_cons_self
  rw [mem_funcIds, ← h.like.size] at hmem
  obtain ⟨v, hv⟩ : ∃ v, t.view id = some v :=
    ⟨_, by rw [view, List.getElem?_eq_getElem hmem, Option.map_some]⟩
  exact ⟨v, hv, h.before id (notMem_done hnodup hsplit) v hv⟩

theorem step {Post' : FuncId → FuncView → Prop} (h : s.Progress Pre Post done t)
    (hb : t.Beside id u) (hpost : ∀ v, u.view id = some v → Post' id v)
    (hmono : ∀ id ∈ done, ∀ v, Post id v → Post' id v) :
    s.Progress Pre Post' (done ++ [id]) u := by
  refine ⟨h.like.trans hb.like, fun id' hmem v hv => ?_, fun id' hmem v hv => ?_⟩
  · by_cases hid : id' = id
    · exact hid ▸ hpost v (hid ▸ hv)
    · have hdone : id' ∈ done := by simpa [hid] using hmem
      exact hmono id' hdone v (h.after id' hdone v (hb.view_of_ne hid ▸ hv))
  · simp only [List.mem_append, List.mem_singleton, not_or] at hmem
    exact h.before id' hmem.1 v (hb.view_of_ne hmem.2 ▸ hv)

theorem all (h : s.Progress Pre Post s.program.funcIds t) :
    ∀ id v, t.view id = some v → Post id v := by
  intro id v hv
  refine h.after id ?_ v hv
  rw [mem_funcIds, ← h.like.size, ← mem_funcIds]
  exact mem_funcIds_of_view hv

end Progress

end RunState

theorem Visit.edit_ends {e : Edit α} {v : VisitState σ} {Q : α → VisitState σ → Prop}
    (h : Ends mayFail e v.func fun a g => Q a { v with func := g }) :
    Ends mayFail (Visit.edit e) v Q := by
  have houtcome : outcome (Visit.edit e) v =
      ((outcome e v.func).1, { v with func := (outcome e v.func).2 }) := rfl
  unfold Ends at h ⊢
  rw [houtcome]
  revert h
  rcases outcome e v.func with ⟨_ | a, g⟩
  · exact fun h => h
  · exact fun h => h

namespace Run

variable {s : RunState σ} {id : FuncId}

theorem visit_ends {w : Visit σ α} {f : Func} {Q : α → RunState σ → Prop}
    (hf : s.program.functions[id.index]? = some f)
    (h : Ends mayFail w ⟨f, s.context, s.memory⟩ fun a v =>
      Q a ⟨s.program.setFunc id v.func, v.context, v.memory⟩) :
    Ends mayFail (visit id w) s Q := by
  have hfunc : s.program.func id = .ok f := Program.func_eq_ok.2 hf
  have houtcome : outcome (visit id w) s =
      ((outcome w ⟨f, s.context, s.memory⟩).1,
        ⟨s.program.setFunc id (outcome w ⟨f, s.context, s.memory⟩).2.func,
          (outcome w ⟨f, s.context, s.memory⟩).2.context,
          (outcome w ⟨f, s.context, s.memory⟩).2.memory⟩) := by
    have hget : outcome (get : Run σ (RunState σ)) s = (.ok s, s) := rfl
    unfold visit
    rw [outcome_bind, hget]
    dsimp only
    rw [hfunc]
    rfl
  unfold Ends at h ⊢
  rw [houtcome]
  revert h
  rcases outcome w ⟨f, s.context, s.memory⟩ with ⟨_ | a, v⟩
  · exact fun h => h
  · exact fun h => h

theorem beside_setFunc {f : Func} {c : Context} {m : σ} (hc : s.context.Beside id c) :
    s.Beside id ⟨s.program.setFunc id f, c, m⟩ := by
  refine ⟨List.length_set, hc, fun id' hne => ?_⟩
  refine List.getElem?_set_ne fun heq => hne ?_
  cases id
  cases id'
  exact congrArg Handle.mk heq.symm

theorem view_setFunc {f g : Func} {c : Context} {m : σ}
    (hf : s.program.functions[id.index]? = some f) :
    RunState.view ⟨s.program.setFunc id g, c, m⟩ id = some (c.view id g) := by
  obtain ⟨hlt, -⟩ := List.getElem?_eq_some_iff.1 hf
  simp only [RunState.view, Program.setFunc]
  rw [List.getElem?_set_self hlt, Option.map_some]

end Run

/-- On a function with `Pre`, the pass comes to `Post`, which may depend on whether it reports a
change; what is stored for a changed function is dropped. Verification keeps `Post`. -/
structure Pass.Serves (mayFail : Prop) (c : Config) (pass : Pass σ) (Pre : FuncView → Prop)
    (Post : Bool → FuncView → Prop) : Prop where
  applies : ∀ id ctx, pass.applies id ctx = true
  prepare : pass.prepare = pure ()
  conclude : pass.conclude = pure ()
  visit : ∀ id v, v.context.config = c → Pre (v.view id) →
    Ends mayFail (pass.visit id) v fun changed w => v.context.Beside id w.context ∧
      Post changed (if changed = true then ⟨w.func, none, none⟩ else w.view id)
  verify : ∀ changed v, Post changed v → c.verify = true →
    Ends mayFail Edit.verify v.func fun _ g => Post changed { v with func := g }

namespace Run

variable {s : RunState σ} {id : FuncId} {c : Config} {pass : Pass σ} {Pre : FuncView → Prop}
  {Post : Bool → FuncView → Prop}

theorem verify_ends {name : String} {v : FuncView} {P : FuncView → Prop}
    (hv : s.view id = some v)
    (h : Ends mayFail Edit.verify v.func fun _ g => P { v with func := g }) :
    Ends mayFail (verify name id) s fun _ t => s.Beside id t ∧ ∃ w, t.view id = some w ∧ P w := by
  obtain ⟨f, hf, rfl⟩ := Option.map_eq_some_iff.1 hv
  refine .tryCatch (visit_ends hf (Visit.edit_ends (h.imp fun _ g hg => ?_))) fun hfail _ _ =>
    .bind (.modify (Q := fun _ _ => True) trivial) fun _ _ _ => .throw _ hfail
  exact ⟨beside_setFunc (.refl id _), _, view_setFunc hf, hg⟩

theorem passOn_ends (hp : pass.Serves mayFail c Pre Post) (hc : s.context.config = c)
    {v : FuncView} (hv : s.view id = some v) (hpre : Pre v) :
    Ends mayFail (passOn pass id) s fun changed t =>
      s.Beside id t ∧ ∃ w, t.view id = some w ∧ Post changed w := by
  obtain ⟨f, hf, rfl⟩ := Option.map_eq_some_iff.1 hv
  unfold passOn
  refine .get_bind ?_
  rw [hp.applies]
  have hvisit : Ends mayFail (visit id (pass.visit id)) s fun changed t => s.Beside id t ∧
      ∃ w, t.view id = some w ∧
        Post changed (if changed = true then ⟨w.func, none, none⟩ else w) := by
    refine visit_ends hf ((hp.visit id ⟨f, s.context, s.memory⟩ hc hpre).imp ?_)
    rintro changed w ⟨hbeside, hpost⟩
    exact ⟨beside_setFunc hbeside, _, view_setFunc hf, hpost⟩
  -- Once a change has dropped what was stored, the function may be verified.
  have hrest : ∀ changed (t : RunState σ) w, s.Beside id t → t.view id = some w → Post changed w →
      Ends mayFail (do
        if (← get).context.config.verify then verify pass.name id
        return changed : Run σ Bool) t fun changed t =>
          s.Beside id t ∧ ∃ w, t.view id = some w ∧ Post changed w := by
    intro changed t w hbeside hw hpost
    refine .get_bind ?_
    split
    · rename_i hverify
      rw [hbeside.context.config, hc] at hverify
      refine .bind (verify_ends hw (hp.verify changed w hpost hverify)) ?_
      rintro _ u ⟨hbeside', w', hw', hpost'⟩
      exact .pure ⟨hbeside.trans hbeside', w', hw', hpost'⟩
    · exact .pure ⟨hbeside, w, hw, hpost⟩
  refine .bind hvisit fun changed t ⟨hbeside, w, hw, hpost⟩ => ?_
  cases changed with
  | false => exact hrest false t w hbeside hw hpost
  | true =>
    obtain ⟨g, hg, rfl⟩ := Option.map_eq_some_iff.1 hw
    refine .bind (.modify (Q := fun _ u => s.Beside id u ∧ u.view id = some ⟨g, none, none⟩) ?_)
      fun _ u hu => hrest true u _ hu.1 hu.2 hpost
    refine ⟨hbeside.trans ⟨rfl, .invalidate id _, fun _ _ => rfl⟩, ?_⟩
    simp [RunState.view, hg, Context.view, Context.invalidate, OrderedMap.get?_erase]

theorem passOnAll_ends (hp : pass.Serves mayFail c Pre Post) (hc : s.context.config = c)
    (hs : s.All Pre) {ids : List FuncId} (hids : ids = s.program.funcIds) :
    Ends mayFail (passOnAll pass ids) s fun n t =>
      s.Like t ∧ t.All fun v => ∃ changed, Post changed v ∧ (n = 0 → changed = false) := by
  subst hids
  have hrecord : ∀ (e : Event) (t : RunState σ), e.kind ≠ .verificationFailed →
      t.Like { t with context := t.context.record e } := fun e t hkind =>
    ⟨rfl, rfl, by simp [Context.record, EventLog.has_record, hkind]⟩
  unfold passOnAll
  refine .bind (R := fun _ t => s.Like t ∧ t.All Pre ∧ t.program = s.program)
    (.modify ⟨hrecord _ _ (by simp), hs, rfl⟩) fun _ t ⟨hlike, hall, hprogram⟩ => ?_
  rw [← hprogram]
  refine .bind (Ends.filterM (I := fun done kept u => t.Progress Pre (fun id v =>
    ∃ changed, Post changed v ∧ (changed = true → id ∈ kept)) done u) _ ?_ (.start hall))
    fun kept u hu => ?_
  · intro done id rest hsplit kept u hu
    obtain ⟨v, hv, hpre⟩ := hu.next (RunState.funcIds_nodup _) hsplit rfl
    refine (passOn_ends hp ((hu.like.config.trans hlike.config).trans hc) hv hpre).imp ?_
    rintro changed u' ⟨hbeside, w, hw, hpost⟩
    refine hu.step hbeside (fun v hv => ?_) fun id' _ v ⟨changed', hpost', hin⟩ =>
      ⟨changed', hpost', fun hc' => ?_⟩
    · obtain rfl := Option.some.inj (hw.symm.trans hv)
      exact ⟨changed, hpost, fun hc' => by simp [hc']⟩
    · split
      · exact List.mem_append_left _ (hin hc')
      · exact hin hc'
  · refine .bind (R := fun _ t' => u.Like t' ∧ ∀ id, t'.view id = u.view id)
      (.modify ⟨hrecord _ _ (by simp), fun _ => rfl⟩) fun _ t' ⟨hlike', hview⟩ => .pure ?_
    refine ⟨(hlike.trans hu.like).trans hlike', fun id v hv => ?_⟩
    obtain ⟨changed, hpost, hin⟩ := hu.all id v (hview id ▸ hv)
    refine ⟨changed, hpost, fun hzero => Bool.eq_false_iff.2 fun htrue => ?_⟩
    have hmem := hin htrue
    rw [List.length_eq_zero_iff.1 hzero] at hmem
    exact List.not_mem_nil hmem

theorem forM_setup_ends {passes : List (Pass σ)} {w : Pass σ → Setup σ Unit}
    (hw : ∀ p ∈ passes, w p = pure ()) :
    Ends mayFail (passes.forM fun p => setup (w p)) s fun _ t => t = s := by
  refine .forM (I := fun _ t => t = s) passes (fun done p rest hsplit t ht => ?_) rfl
  rw [hw p (hsplit ▸ List.mem_append_right _ List.mem_cons_self)]
  exact ht

theorem sweep_ends {passes : List (Pass σ)} {Inv : FuncView → Prop}
    (hpasses : ∀ p ∈ passes, p.Serves mayFail c Inv fun _ => Inv) (hc : s.context.config = c)
    (hs : s.All Inv) : Ends mayFail (sweep passes) s fun _ t => s.Like t ∧ t.All Inv := by
  refine .bind (forM_setup_ends fun p hp => (hpasses p hp).prepare) fun _ t ht => ?_
  rw [ht]
  refine .get_bind (.bind (Ends.mapM (I := fun t => s.Like t ∧ t.All Inv) ?_ ⟨.refl s, hs⟩) ?_)
  · rintro p hp t ⟨hlike, hall⟩
    have hids : s.program.funcIds = t.program.funcIds := by
      rw [Program.funcIds, ← hlike.size, Program.funcIds]
    refine (passOnAll_ends (hpasses p hp) (hlike.config.trans hc) hall hids).imp ?_
    rintro n u ⟨hlike', hall'⟩
    exact ⟨hlike.trans hlike', hall'.imp fun v ⟨_, hv, _⟩ => hv⟩
  · rintro counts t ht
    refine .bind (forM_setup_ends fun p hp => (hpasses p hp).conclude) fun _ u hu => .pure ?_
    rw [hu]
    exact ht

theorem sweeps_ends {passes : List (Pass σ)} {Inv : FuncView → Prop}
    (hpasses : ∀ p ∈ passes, p.Serves mayFail c Inv fun _ => Inv) (left done : Nat)
    (hc : s.context.config = c) (hs : s.All Inv) :
    Ends mayFail (sweeps passes left done) s fun _ t => s.Like t ∧ t.All Inv := by
  induction left generalizing s done with
  | zero => exact .pure ⟨.refl s, hs⟩
  | succ left ih =>
    refine .bind (sweep_ends hpasses hc hs) fun changed t ⟨hlike, hall⟩ => ?_
    split
    · exact (ih (done + 1) (hlike.config.trans hc) hall).imp fun _ u hu =>
        ⟨hlike.trans hu.1, hu.2⟩
    · exact .pure ⟨hlike, hall⟩

/-- At the start of a run every function gets the dominance limit of the configuration. -/
theorem limits_ends {Pre Post : FuncView → Prop}
    (hpost : ∀ v, Pre v → Post { v with
      func := ((Edit.setDominanceLimit s.context.config.dominanceLimit).apply v.func).2 })
    (hs : s.All Pre) :
    Ends mayFail (s.program.funcIds.forM fun id => do
      let limit := (← get).context.config.dominanceLimit
      visit id (Visit.edit (Edit.setDominanceLimit limit)) : Run σ Unit) s fun _ t =>
        s.Like t ∧ t.All Post := by
  refine (Ends.forM (I := fun done t => s.Progress Pre (fun _ => Post) done t) _ ?_ (.start hs)).imp
    fun _ t ht => ⟨ht.like, fun id v hv => ht.all id v hv⟩
  intro done id rest hsplit t ht
  obtain ⟨v, hv, hpre⟩ := ht.next (RunState.funcIds_nodup _) hsplit rfl
  obtain ⟨f, hf, rfl⟩ := Option.map_eq_some_iff.1 hv
  refine .get_bind (visit_ends hf (Visit.edit_ends (Ends.modify ?_)))
  refine ht.step (beside_setFunc (.refl id _)) (fun w hw => ?_) fun _ _ _ h => h
  obtain rfl := Option.some.inj ((view_setFunc hf).symm.trans hw)
  rw [ht.like.config]
  exact hpost _ hpre

end Run

end Midend
