import Askl.Store.UploadService

/-!
# An upload delivers everything

The client of `askld index upload` and the server exchange requests and responses that may be
lost, and the client repeats chunks whose fate it does not know.  Whatever is lost or repeated,
and in whatever order the server gets to the requests, an upload that ends well has left a
complete project, and the server meets no object chunk before it has all symbols.

The induction carries, beside the contract of the requests, where each chunk is: committed, still
to be sent, or in a task whose last request asks for it.

## Main definitions

* `UploadDelivered` — what an upload is for.
* `WindowInv`, `StageInv`, `PhaseInv` — what the client knows in each state.
* `UploadRun` — runs of a client and its server.

## Main results

* `phaseInv_netStep`, `phaseInv_act` — the server and the client keep what is known.
* `uploadDelivered_of_run` — **an upload that is done has been delivered.**
* `symbolChunks_of_sent_objectChunk` — **objects are sent when all symbols are committed.**
-/

namespace Askl

open Relation Exchange

/-! ### What is known -/

/-- The network of the upload requests. -/
abbrev UploadNet := Net Store Call ServerJob Reply

/-- An upload that has done its work: the project is complete, all chunks are committed and all
contents are present. -/
structure UploadDelivered (u : UploadArgs) (s : Store) (projectId : ℤ) : Prop where
  finished : s.Finished u.name projectId
  symbolChunks : ∀ c ∈ u.symbolChunks, ⟨projectId, c.1⟩ ∈ s.symbolChunks
  objectChunks : ∀ c ∈ u.objectChunks, ⟨projectId, c.1⟩ ∈ s.objectChunks
  contents : ∀ file ∈ u.contentFiles, ∀ entry ∈ file, s.Present entry.contentHash

/-- No deletion is under way. -/
def NoDelete (net : UploadNet) : Prop :=
  ∀ p ∈ net.pending, ∀ call, net.sent[p.1]? = some call → call.isDelete = false

/-- Every content is present or in a batch that is still to be sent. -/
def ContentsCovered (u : UploadArgs) (s : Store) (todo : List (List ObjectContent)) : Prop :=
  ∀ file ∈ u.contentFiles, ∀ entry ∈ file,
    s.Present entry.contentHash ∨ ∃ batch ∈ todo, entry ∈ batch

/-- Where the chunks of a window are. -/
structure WindowInv (chunks : List (ℤ × UploadProject)) (recorded : ℤ → Prop)
    (call : ℤ → UploadProject → Call) (sent : List Call) (w : ChunkWindow) : Prop where
  covered : ∀ c ∈ chunks, recorded c.1 ∨ c ∈ w.todo ∨ (∃ task ∈ w.tasks, task.seq = c.1) ∨
    w.failed = true
  todo : ∀ c ∈ w.todo, c ∈ chunks
  tasks : ∀ task ∈ w.tasks, (task.seq, task.chunk) ∈ chunks ∧
    sent[task.tag]? = some (call task.seq task.chunk)

/-- What is known in a stage of `do_upload`. -/
def StageInv (u : UploadArgs) (projectId : ℤ) (net : UploadNet) : UploadStage → Prop
  | .checking _ present tag => (∀ hash ∈ present, net.server.Present hash) ∧
      ∀ t ∈ tag, ∃ hashes, net.sent[t]? = some (.checkContents hashes)
  | .contents todo none => ContentsCovered u net.server todo
  | .contents todo (some tag) => ∃ batch, net.sent[tag]? = some (.uploadContents batch) ∧
      ContentsCovered u net.server (batch :: todo)
  | .symbols w => ContentsCovered u net.server [] ∧
      WindowInv u.symbolChunks (fun seq => ⟨projectId, seq⟩ ∈ net.server.symbolChunks)
        (.symbolChunk projectId) net.sent w
  | .objects w => ContentsCovered u net.server [] ∧
      (∀ c ∈ u.symbolChunks, ⟨projectId, c.1⟩ ∈ net.server.symbolChunks) ∧
      WindowInv u.objectChunks (fun seq => ⟨projectId, seq⟩ ∈ net.server.objectChunks)
        (.objectChunk projectId) net.sent w
  | .finalizing tag => ContentsCovered u net.server [] ∧
      (∀ c ∈ u.symbolChunks, ⟨projectId, c.1⟩ ∈ net.server.symbolChunks) ∧
      (∀ c ∈ u.objectChunks, ⟨projectId, c.1⟩ ∈ net.server.objectChunks) ∧
      ∀ t ∈ tag, net.sent[t]? = some (.finalize projectId)

/-- What is known of a project that is uploaded. -/
structure StateInv (u : UploadArgs) (s : Store) (state : ProjectState) : Prop where
  live : s.Live u.name state.projectId
  symbolSeqs : ∀ seq ∈ state.committedSymbolSeqs, ⟨state.projectId, seq⟩ ∈ s.symbolChunks
  objectSeqs : ∀ seq ∈ state.committedObjectSeqs, ⟨state.projectId, seq⟩ ∈ s.objectChunks

/-- What is known in a phase of `upload_project_core`.  A deletion is under way in one phase at
most, and before it only the projects have been asked for. -/
def PhaseInv (u : UploadArgs) (net : UploadNet) : UploadPhase → Prop
  | .start => net.sent = []
  | .listing tag => NoDelete net ∧ (∀ call ∈ net.sent, call.isEarly = true) ∧
      net.sent[tag]? = some .listProjects
  | .deleting tag => ∀ p ∈ net.pending, p.1 ≠ tag → ∀ call, net.sent[p.1]? = some call →
      call.isDelete = false
  | .creating tag => NoDelete net ∧ ∃ rootPath symbolTotal objectTotal,
      net.sent[tag]? = some (.createProject u.projectName rootPath symbolTotal objectTotal)
  | .detailing tag projectId => NoDelete net ∧ net.sent[tag]? = some (.projectDetails projectId)
  | .uploading state stage => NoDelete net ∧ StateInv u net.server state ∧
      StageInv u state.projectId net stage
  | .done projectId => NoDelete net ∧ UploadDelivered u net.server projectId
  | .failed => True

section Protocol

variable {hashBytes : Bytes → Text} {allowed : Store → Request → Prop} {u : UploadArgs}
  {hallowed : ∀ s req, allowed s req → Store.Spares u.name s req}
  {net net' : UploadNet} {s s' : Store} {projectId : ℤ}

/-! ### The server keeps it -/

/-- While no deletion is under way, live projects stay. -/
theorem keeps_netStep (hholds : (uploadContract hashBytes hallowed).Holds net)
    (hquiet : NoDelete net) (hstep : NetStep (uploadService hashBytes allowed) net net') :
    Store.Keeps u.name net.server net'.server := by
  refine hstep.stable hholds hquiet ?_ ?_ (.refl _)
  · intro call job s s' out hs hkept _ hprogress hcalm hserve
    rcases keeps_of_serve hs hprogress hserve with hdelete | hkept'
    · rw [hcalm] at hdelete
      cases hdelete
    · exact hkept.trans hkept'
  · intro s s' hs hkept hothers
    obtain ⟨req, c, hreq, hc, rfl⟩ := hothers
    exact hkept.trans (.handle hs hc (hallowed s req hreq))

theorem ContentsCovered.mono {todo : List (List ObjectContent)} (hkept : Store.Keeps u.name s s')
    (h : ContentsCovered u s todo) : ContentsCovered u s' todo := by
  intro file hfile entry hentry
  exact (h file hfile entry hentry).imp_left (hkept.present _)

theorem WindowInv.mono {chunks : List (ℤ × UploadProject)} {recorded recorded' : ℤ → Prop}
    {call : ℤ → UploadProject → Call} {sent : List Call} {w : ChunkWindow}
    (himp : ∀ seq, recorded seq → recorded' seq) (h : WindowInv chunks recorded call sent w) :
    WindowInv chunks recorded' call sent w :=
  ⟨fun c hc => (h.covered c hc).imp_left (himp c.1), h.todo, h.tasks⟩

theorem StateInv.mono {state : ProjectState} (hkept : Store.Keeps u.name s s')
    (h : StateInv u s state) : StateInv u s' state where
  live := hkept.live h.live
  symbolSeqs seq hseq := hkept.symbolChunks h.live (h.symbolSeqs seq hseq)
  objectSeqs seq hseq := hkept.objectChunks h.live (h.objectSeqs seq hseq)

theorem UploadDelivered.mono (hkept : Store.Keeps u.name s s') (h : UploadDelivered u s projectId) :
    UploadDelivered u s' projectId := by
  have hlive : s.Live u.name projectId := by
    obtain ⟨p, hp, hid, hname, hstatus⟩ := h.finished
    exact ⟨p, hp, hid, hname, Or.inr hstatus⟩
  exact ⟨hkept.finished h.finished, fun c hc => hkept.symbolChunks hlive (h.symbolChunks c hc),
    fun c hc => hkept.objectChunks hlive (h.objectChunks c hc),
    fun file hfile entry hentry => hkept.present _ (h.contents file hfile entry hentry)⟩

/-- What is known in a stage stays true at the server. -/
theorem stageInv_mono {stage : UploadStage} (hkept : Store.Keeps u.name net.server net'.server)
    (hsent : net'.sent = net.sent) (hlive : net.server.Live u.name projectId)
    (h : StageInv u projectId net stage) : StageInv u projectId net' stage := by
  have hsymbols : ∀ seq, ⟨projectId, seq⟩ ∈ net.server.symbolChunks →
      ⟨projectId, seq⟩ ∈ net'.server.symbolChunks := fun seq => hkept.symbolChunks hlive
  have hobjects : ∀ seq, ⟨projectId, seq⟩ ∈ net.server.objectChunks →
      ⟨projectId, seq⟩ ∈ net'.server.objectChunks := fun seq => hkept.objectChunks hlive
  cases stage with
  | checking todo present tag =>
    refine ⟨fun hash hhash => hkept.present hash (h.1 hash hhash), ?_⟩
    rw [hsent]
    exact h.2
  | contents todo tag =>
    cases tag with
    | none => exact ContentsCovered.mono hkept h
    | some tag =>
      obtain ⟨batch, hbatch, hcovered⟩ := h
      exact ⟨batch, hsent ▸ hbatch, hcovered.mono hkept⟩
  | symbols w => exact ⟨h.1.mono hkept, hsent ▸ h.2.mono hsymbols⟩
  | objects w =>
    exact ⟨h.1.mono hkept, fun c hc => hsymbols c.1 (h.2.1 c hc), hsent ▸ h.2.2.mono hobjects⟩
  | finalizing tag =>
    refine ⟨h.1.mono hkept, fun c hc => hsymbols c.1 (h.2.1 c hc),
      fun c hc => hobjects c.1 (h.2.2.1 c hc), ?_⟩
    rw [hsent]
    exact h.2.2.2

theorem NoDelete.netStep (hquiet : NoDelete net)
    (hstep : NetStep (uploadService hashBytes allowed) net net') : NoDelete net' := by
  intro p hp call hcall
  obtain ⟨job, hjob⟩ := hstep.exists_pending hp
  rw [hstep.sent_eq] at hcall
  exact hquiet _ hjob call hcall

/-- **What the client knows stays true, whatever happens at the server.** -/
theorem phaseInv_netStep {phase : UploadPhase}
    (hholds : (uploadContract hashBytes hallowed).Holds net)
    (hstep : NetStep (uploadService hashBytes allowed) net net') (h : PhaseInv u net phase) :
    PhaseInv u net' phase := by
  have hsent := hstep.sent_eq
  cases phase with
  | start => exact hsent.trans h
  | listing tag =>
    refine ⟨h.1.netStep hstep, ?_⟩
    rw [hsent]
    exact h.2
  | deleting tag =>
    intro p hp hne call hcall
    obtain ⟨job, hjob⟩ := hstep.exists_pending hp
    rw [hsent] at hcall
    exact h _ hjob hne call hcall
  | creating tag =>
    refine ⟨h.1.netStep hstep, ?_⟩
    rw [hsent]
    exact h.2
  | detailing tag projectId => exact ⟨h.1.netStep hstep, hsent.symm ▸ h.2⟩
  | uploading state stage =>
    have hkept := keeps_netStep hholds h.1 hstep
    exact ⟨h.1.netStep hstep, h.2.1.mono hkept, stageInv_mono hkept hsent h.2.1.live h.2.2⟩
  | done projectId => exact ⟨h.1.netStep hstep, h.2.mono (keeps_netStep hholds h.1 hstep)⟩
  | failed => exact trivial

/-! ### Windows -/

section Window

variable {chunks : List (ℤ × UploadProject)} {recorded : ℤ → Prop}
  {call : ℤ → UploadProject → Call} {sent : List Call} {w w' : ChunkWindow} {r : Option Call}
  {tag : ℕ}

/-- What a window does keeps its chunks in view, and asks for chunks only. -/
def WindowSound (chunks : List (ℤ × UploadProject)) (recorded : ℤ → Prop)
    (call : ℤ → UploadProject → Call) (sent : List Call) (out : ChunkWindow × Option Call) : Prop :=
  (∀ r ∈ out.2, ∃ c ∈ chunks, r = call c.1 c.2) ∧
    WindowInv chunks recorded call (sent ++ out.2.toList) out.1

/-- A task that is done has its chunk committed, and one that fails is remembered. -/
theorem WindowInv.finish (h : WindowInv chunks recorded call sent w) {failed : Bool}
    (hdone : failed = false → ∀ seq chunk, sent[tag]? = some (call seq chunk) → recorded seq)
    (hw : w.finish tag failed = some (w', r)) :
    WindowSound chunks recorded call sent (w', r) := by
  unfold ChunkWindow.finish at hw
  split at hw
  swap
  · cases hw
  obtain ⟨rfl, rfl⟩ := Prod.mk.inj (Option.some.inj hw)
  refine ⟨(fun r hr => by cases hr), ?_, h.todo, ?_⟩
  · intro c hc
    rcases h.covered c hc with hrec | htodo | ⟨task, htask, hseq⟩ | hfailed
    · exact Or.inl hrec
    · exact Or.inr (Or.inl htodo)
    · by_cases htag : task.tag = tag
      · cases failed with
        | true => exact Or.inr (Or.inr (Or.inr (Bool.or_true _)))
        | false =>
          left
          rw [← hseq]
          exact hdone rfl _ _ (htag ▸ (h.tasks task htask).2)
      · exact Or.inr (Or.inr (Or.inl ⟨task, List.mem_filter.mpr ⟨htask, by simpa using htag⟩, hseq⟩))
    · exact Or.inr (Or.inr (Or.inr (by simp [hfailed])))
  · intro task htask
    obtain ⟨hmem, hsent⟩ := h.tasks task (List.mem_of_mem_filter htask)
    exact ⟨hmem, by simpa using hsent⟩

/-- What was sent keeps its position. -/
theorem getElem?_append_toList {t : ℕ} {r' : Call} (h : sent[t]? = some r') :
    (sent ++ r.toList)[t]? = some r' := by
  obtain ⟨hlt, -⟩ := List.getElem?_eq_some_iff.mp h
  rw [List.getElem?_append_left hlt]
  exact h

/-- A task that tries again asks for the same chunk. -/
theorem WindowInv.retry (h : WindowInv chunks recorded call sent w)
    (hinj : ∀ seq seq' chunk chunk', call seq chunk = call seq' chunk' → seq = seq')
    (hw : w.retry call sent.length tag = some (w', r)) :
    WindowSound chunks recorded call sent (w', r) := by
  unfold ChunkWindow.retry at hw
  split at hw
  · cases hw
  next task hfind =>
  have htask := List.mem_of_find?_eq_some hfind
  have htag : task.tag = tag := by simpa using List.find?_some hfind
  obtain ⟨hmem, hsent⟩ := h.tasks task htask
  dsimp only at hw
  split at hw
  · obtain ⟨rfl, rfl⟩ := Prod.mk.inj (Option.some.inj hw)
    refine ⟨?_, ?_, h.todo, ?_⟩
    · intro r hr
      obtain rfl := Option.some.inj hr
      exact ⟨_, hmem, rfl⟩
    · intro c hc
      rcases h.covered c hc with hrec | htodo | ⟨task', htask', hseq⟩ | hfailed
      · exact Or.inl hrec
      · exact Or.inr (Or.inl htodo)
      · refine Or.inr (Or.inr (Or.inl ?_))
        by_cases htag' : task'.tag = tag
        · -- both tasks wait for one request, so they have one chunk
          obtain ⟨-, hsent'⟩ := h.tasks task' htask'
          rw [htag'] at hsent'
          rw [htag] at hsent
          have hsame := hinj _ _ _ _ (Option.some.inj (hsent.symm.trans hsent'))
          exact ⟨_, List.mem_append_right _ (List.mem_singleton_self _), hsame.trans hseq⟩
        · exact ⟨task', List.mem_append_left _
            (List.mem_filter.mpr ⟨htask', by simpa using htag'⟩), hseq⟩
      · exact Or.inr (Or.inr (Or.inr hfailed))
    · intro task' htask'
      rcases List.mem_append.mp htask' with htask' | htask'
      · obtain ⟨hmem', hsent'⟩ := h.tasks task' (List.mem_of_mem_filter htask')
        exact ⟨hmem', getElem?_append_toList hsent'⟩
      · obtain rfl := List.mem_singleton.mp htask'
        exact ⟨hmem, by simp⟩
  · obtain ⟨rfl, rfl⟩ := Prod.mk.inj (Option.some.inj hw)
    refine ⟨(fun r hr => by cases hr), fun c _ => Or.inr (Or.inr (Or.inr rfl)), h.todo, ?_⟩
    intro task' htask'
    obtain ⟨hmem', hsent'⟩ := h.tasks task' (List.mem_of_mem_filter htask')
    exact ⟨hmem', by simpa using hsent'⟩

/-- A chunk that is passed over is committed, and one that is spawned is in its task. -/
theorem WindowInv.spawn (h : WindowInv chunks recorded call sent w) {committed : List ℤ}
    (hcommitted : ∀ seq ∈ committed, recorded seq) {window : ℕ}
    (hw : w.spawn call committed window sent.length = some (w', r)) :
    WindowSound chunks recorded call sent (w', r) := by
  unfold ChunkWindow.spawn at hw
  split at hw
  · cases hw
  next seq chunk todo htodo =>
  have hsub : ∀ c ∈ todo, c ∈ chunks := fun c hc =>
    h.todo c (by rw [htodo]; exact List.mem_cons_of_mem _ hc)
  have hhead : (seq, chunk) ∈ chunks := h.todo _ (by rw [htodo]; exact List.mem_cons_self)
  split at hw
  · next hcontains =>
    obtain ⟨rfl, rfl⟩ := Prod.mk.inj (Option.some.inj hw)
    refine ⟨(fun r hr => by cases hr), fun c hc => ?_, hsub, fun task htask => ?_⟩
    · rcases h.covered c hc with hrec | hmem | hrest
      · exact Or.inl hrec
      · rw [htodo] at hmem
        rcases List.mem_cons.mp hmem with rfl | hmem
        · exact Or.inl (hcommitted seq (List.contains_iff_mem.mp hcontains))
        · exact Or.inr (Or.inl hmem)
      · exact Or.inr (Or.inr hrest)
    · obtain ⟨hmem, hsent⟩ := h.tasks task htask
      exact ⟨hmem, by simpa using hsent⟩
  · split at hw
    swap
    · cases hw
    obtain ⟨rfl, rfl⟩ := Prod.mk.inj (Option.some.inj hw)
    refine ⟨?_, fun c hc => ?_, hsub, fun task htask => ?_⟩
    · intro r hr
      obtain rfl := Option.some.inj hr
      exact ⟨_, hhead, rfl⟩
    · rcases h.covered c hc with hrec | hmem | ⟨task, htask, hseq⟩ | hfailed
      · exact Or.inl hrec
      · rw [htodo] at hmem
        rcases List.mem_cons.mp hmem with rfl | hmem
        · exact Or.inr (Or.inr (Or.inl
            ⟨_, List.mem_append_right _ (List.mem_singleton_self _), rfl⟩))
        · exact Or.inr (Or.inl hmem)
      · exact Or.inr (Or.inr (Or.inl ⟨task, List.mem_append_left _ htask, hseq⟩))
      · exact Or.inr (Or.inr (Or.inr hfailed))
    · rcases List.mem_append.mp htask with htask | htask
      · obtain ⟨hmem, hsent⟩ := h.tasks task htask
        exact ⟨hmem, getElem?_append_toList hsent⟩
      · obtain rfl := List.mem_singleton.mp htask
        exact ⟨hhead, by simp⟩

/-- **What a window does on any event keeps its chunks in view.** -/
theorem WindowInv.act (h : WindowInv chunks recorded call sent w) {committed : List ℤ}
    (hinj : ∀ seq seq' chunk chunk', call seq chunk = call seq' chunk' → seq = seq')
    (hcommitted : ∀ seq ∈ committed, recorded seq) {window : ℕ} {e : Event Reply Tick}
    (hreply : ∀ tag rep, e = .inl (tag, rep) → rep.accepted = true → ∀ seq chunk,
      sent[tag]? = some (call seq chunk) → recorded seq)
    (hw : w.act call committed window sent.length e = some (w', r)) :
    WindowSound chunks recorded call sent (w', r) := by
  cases e with
  | inl p =>
    obtain ⟨tag, rep⟩ := p
    change w.reply call sent.length tag rep = _ at hw
    unfold ChunkWindow.reply at hw
    split at hw
    · next haccepted => exact h.finish (fun _ => hreply tag rep rfl haccepted) hw
    · split at hw
      · exact h.retry hinj hw
      · exact h.finish (fun hfailed => by cases hfailed) hw
  | inr tick =>
    cases tick with
    | proceed => exact h.spawn hcommitted hw
    | lost tag => exact h.retry hinj hw
    | broken tag => exact h.finish (fun hfailed => by cases hfailed) hw
    | abort => cases hw

/-- A window that ends well has all chunks committed. -/
theorem WindowInv.exit (h : WindowInv chunks recorded call sent w) {e : Event Reply Tick}
    (hexit : w.exit e = some true) : ∀ c ∈ chunks, recorded c.1 := by
  unfold ChunkWindow.exit at hexit
  split at hexit
  swap
  · cases hexit
  split at hexit
  · cases hexit
  next hnot =>
  split at hexit
  swap
  · cases hexit
  next hend =>
  intro c hc
  rcases h.covered c hc with hrec | htodo | ⟨task, htask, -⟩ | hfailed
  · exact hrec
  · rw [hend.1] at htodo
    cases htodo
  · rw [hend.2] at htask
    cases htask
  · exact absurd ⟨hend.1, hfailed⟩ hnot

end Window

/-! ### The client keeps it -/

/-- What a step of the client has to respect: what it sends may be sent, and what it knows holds
afterwards. -/
def ActSound (hashBytes : Bytes → Text)
    (hallowed : ∀ s req, allowed s req → Store.Spares u.name s req) (net : UploadNet)
    (out : UploadPhase × Option Call) : Prop :=
  (∀ call ∈ out.2, (uploadContract hashBytes hallowed).Admits net call) ∧
    PhaseInv u (net.sendOpt (uploadService hashBytes allowed) out.2) out.1

/-- Once no deletion is under way, a request may be sent as soon as what it requires holds. -/
theorem admits_of_noDelete (hquiet : NoDelete net) {call : Call} (hcall : call.isDelete = false)
    (hrequires : (uploadTerms u).Requires call net.server) :
    (uploadContract hashBytes hallowed).Admits net call where
  requires := hrequires
  quiet p hp call₀ hcall₀ hinterferes := by
    have hdelete := hquiet p hp call₀ hcall₀
    rw [hinterferes.1] at hdelete
    cases hdelete
  harmless call' _ hinterferes := by
    rw [hinterferes.1] at hcall
    cases hcall
  self hinterferes := by
    rw [hinterferes.1] at hcall
    cases hcall

theorem NoDelete.send (hholds : (uploadContract hashBytes hallowed).Holds net)
    (hquiet : NoDelete net) {call : Call} (hcall : call.isDelete = false) :
    NoDelete (net.send (uploadService hashBytes allowed) call) := by
  intro p hp call' hcall'
  rcases List.mem_append.mp hp with hp | hp
  · obtain ⟨call₀, hcall₀, -⟩ := hholds.pending p hp
    obtain rfl := Option.some.inj ((getElem?_send hcall₀).symm.trans hcall')
    exact hquiet p hp call₀ hcall₀
  · obtain rfl := List.mem_singleton.mp hp
    have hlast : (net.sent ++ [call])[net.sent.length]? = some call := by simp
    obtain rfl := Option.some.inj (hlast.symm.trans hcall')
    exact hcall

theorem getElem?_send_length {call : Call} :
    (net.send (uploadService hashBytes allowed) call).sent[net.sent.length]? = some call := by
  simp [Net.send]

theorem actSound_failed : ActSound hashBytes hallowed net (.failed, none) :=
  ⟨(fun _ h => by cases h), trivial⟩

/-- A content that is not present is in one of the batches. -/
theorem covered_subBatches {present : List Text} (h : ∀ hash ∈ present, s.Present hash) :
    ContentsCovered u s (u.contentFiles.flatMap (subBatches present)) := by
  intro file hfile entry hentry
  cases hpresent : present.contains entry.contentHash with
  | true => exact Or.inl (h _ (List.contains_iff_mem.mp hpresent))
  | false =>
    right
    have hflatten := (isPacking_subBatches present file).flatten
    have hmem : entry ∈ (subBatches present file).flatten := by
      rw [hflatten]
      exact List.mem_filter.mpr ⟨hentry, by rw [hpresent]; rfl⟩
    obtain ⟨batch, hbatch, hin⟩ := List.mem_flatten.mp hmem
    exact ⟨batch, List.mem_flatMap.mpr ⟨file, hfile, hbatch⟩, hin⟩

/-- A batch that has been taken is present. -/
theorem covered_of_uploaded {batch : List ObjectContent} {todo : List (List ObjectContent)}
    (h : ContentsCovered u s (batch :: todo))
    (hbatch : ∀ entry ∈ batch, s.Present entry.contentHash) :
    ContentsCovered u s todo := by
  intro file hfile entry hentry
  rcases h file hfile entry hentry with hpresent | ⟨b, hb, hin⟩
  · exact Or.inl hpresent
  · rcases List.mem_cons.mp hb with rfl | hb
    · exact Or.inl (hbatch entry hin)
    · exact Or.inr ⟨b, hb, hin⟩

/-- `do_upload` starts. -/
theorem actSound_enter {state : ProjectState} (hquiet : NoDelete net)
    (hstate : StateInv u net.server state) :
    ActSound hashBytes hallowed net (u.enter state) :=
  ⟨(fun _ h => by cases h), hquiet, hstate, List.forall_mem_nil _, (fun _ h => by cases h)⟩

/-- A stage that goes on without a request. -/
theorem actSound_stage {state : ProjectState} {stage : UploadStage} (hquiet : NoDelete net)
    (hstate : StateInv u net.server state) (hstage : StageInv u state.projectId net stage) :
    ActSound hashBytes hallowed net (.uploading state stage, none) :=
  ⟨(fun _ h => by cases h), hquiet, hstate, hstage⟩

section Act

variable (hholds : (uploadContract hashBytes hallowed).Holds net)

include hholds

/-- The project is asked for. -/
theorem actSound_create (hquiet : NoDelete net) :
    ActSound hashBytes hallowed net (u.create net.sent.length) := by
  refine ⟨?_, hquiet.send hholds rfl, _, _, _, getElem?_send_length⟩
  intro call hcall
  obtain rfl := Option.some.inj hcall
  exact admits_of_noDelete hquiet rfl rfl

/-- A stage that sends a request. -/
theorem actSound_send {state : ProjectState} {stage : UploadStage} {call : Call}
    (hquiet : NoDelete net) (hstate : StateInv u net.server state) (hcall : call.isDelete = false)
    (hrequires : (uploadTerms u).Requires call net.server)
    (hstage : StageInv u state.projectId (net.send (uploadService hashBytes allowed) call) stage) :
    ActSound hashBytes hallowed net (.uploading state stage, some call) := by
  refine ⟨?_, hquiet.send hholds hcall, hstate, hstage⟩
  intro call' hcall'
  obtain rfl := Option.some.inj hcall'
  exact admits_of_noDelete hquiet hcall hrequires

/-- A stage of chunks: what is sent are chunks. -/
theorem actSound_window {chunks : List (ℤ × UploadProject)} {recorded : ℤ → Prop}
    {call : ℤ → UploadProject → Call} {state : ProjectState} {stage : ChunkWindow → UploadStage}
    {out : ChunkWindow × Option Call} (hquiet : NoDelete net)
    (hstate : StateInv u net.server state) (hcall : ∀ seq chunk, (call seq chunk).isDelete = false)
    (hrequires : ∀ c ∈ chunks, (uploadTerms u).Requires (call c.1 c.2) net.server)
    (hsound : WindowSound chunks recorded call net.sent out)
    (hstage : ∀ r, WindowInv chunks recorded call (net.sent ++ r.toList) out.1 →
      StageInv u state.projectId (net.sendOpt (uploadService hashBytes allowed) r) (stage out.1)) :
    ActSound hashBytes hallowed net (stay state stage out) := by
  obtain ⟨w, r⟩ := out
  obtain ⟨hcalls, hwindow⟩ := hsound
  cases r with
  | none => exact actSound_stage hquiet hstate (hstage none hwindow)
  | some r =>
    obtain ⟨c, hc, rfl⟩ := hcalls r rfl
    exact actSound_send hholds hquiet hstate (hcall c.1 c.2) (hrequires c hc)
      (hstage (some _) hwindow)

/-- What a response tells that has come. -/
theorem ensures_of_enabled {tag : ℕ} {rep : Reply} (h : (tag, rep) ∈ net.replies) {call : Call}
    (hcall : net.sent[tag]? = some call) : (uploadTerms u).Ensures call rep net.server := by
  obtain ⟨call', hcall', hensures⟩ := hholds.replies _ h
  obtain rfl := Option.some.inj (hcall.symm.trans hcall')
  exact hensures

/-- **The stages of `do_upload`.** -/
theorem actSound_uploadStage {state : ProjectState} {stage : UploadStage} {e : Event Reply Tick}
    {out : UploadPhase × Option Call} (henabled : net.Enables e) (hquiet : NoDelete net)
    (hstate : StateInv u net.server state) (hstage : StageInv u state.projectId net stage)
    (hact : uploadStage u state net.sent.length e stage = some out) :
    ActSound hashBytes hallowed net out := by
  cases stage with
  | checking todo present tag =>
    cases tag with
    | none =>
      cases todo with
      | nil =>
        simp only [uploadStage] at hact
        split at hact
        swap
        · cases hact
        obtain rfl := Option.some.inj hact
        exact actSound_stage hquiet hstate (covered_subBatches hstage.1)
      | cons batch todo =>
        simp only [uploadStage] at hact
        split at hact
        swap
        · cases hact
        obtain rfl := Option.some.inj hact
        refine actSound_send hholds hquiet hstate rfl trivial ⟨hstage.1, ?_⟩
        intro t ht
        obtain rfl := Option.some.inj ht
        exact ⟨batch, getElem?_send_length⟩
    | some tag =>
      simp only [uploadStage] at hact
      split at hact
      swap
      · cases hact
      next tag' reply =>
      split at hact
      swap
      · cases hact
      next htag =>
      obtain rfl := htag
      obtain ⟨hashes, hsent⟩ := hstage.2 tag' rfl
      split at hact
      · obtain rfl := Option.some.inj hact
        refine actSound_stage hquiet hstate ⟨?_, (fun _ h => by cases h)⟩
        intro hash hhash
        rcases List.mem_append.mp hhash with hhash | hhash
        · exact hstage.1 hash hhash
        · exact ensures_of_enabled hholds henabled hsent hash hhash
      · obtain rfl := Option.some.inj hact
        exact actSound_failed
  | contents todo tag =>
    cases tag with
    | none =>
      cases todo with
      | nil =>
        simp only [uploadStage] at hact
        split at hact
        swap
        · cases hact
        obtain rfl := Option.some.inj hact
        refine actSound_stage hquiet hstate ⟨hstage, ?_, (fun _ h => h), List.forall_mem_nil _⟩
        exact fun c hc => Or.inr (Or.inl hc)
      | cons batch todo =>
        simp only [uploadStage] at hact
        split at hact
        swap
        · cases hact
        obtain rfl := Option.some.inj hact
        exact actSound_send hholds hquiet hstate rfl trivial ⟨batch, getElem?_send_length, hstage⟩
    | some tag =>
      simp only [uploadStage] at hact
      split at hact
      swap
      · cases hact
      next tag' reply =>
      split at hact
      swap
      · cases hact
      next htag =>
      obtain rfl := htag
      obtain ⟨batch, hsent, hcovered⟩ := hstage
      split at hact
      · obtain rfl := Option.some.inj hact
        refine actSound_stage hquiet hstate (covered_of_uploaded hcovered ?_)
        exact ensures_of_enabled hholds henabled hsent
      · obtain rfl := Option.some.inj hact
        exact actSound_failed
  | symbols w =>
    simp only [uploadStage] at hact
    split at hact
    · next hexit =>
      obtain rfl := Option.some.inj hact
      refine actSound_stage hquiet hstate ⟨hstage.1, hstage.2.exit hexit, ?_, (fun _ h => h),
        List.forall_mem_nil _⟩
      exact fun c hc => Or.inr (Or.inl hc)
    · obtain rfl := Option.some.inj hact
      exact actSound_failed
    · obtain ⟨⟨w', r⟩, hw, rfl⟩ := Option.map_eq_some_iff.mp hact
      have hrecorded : ∀ tag rep, e = .inl (tag, rep) → rep.accepted = true → ∀ seq chunk,
          net.sent[tag]? = some (.symbolChunk state.projectId seq chunk) →
            ⟨state.projectId, seq⟩ ∈ net.server.symbolChunks := by
        intro tag rep he haccepted seq chunk hsent
        subst he
        exact ensures_of_enabled hholds henabled hsent haccepted
      have hrequires : ∀ c ∈ u.symbolChunks, (uploadTerms u).Requires
          (.symbolChunk state.projectId c.1 c.2) net.server := fun c hc => ⟨hstate.live, hc⟩
      have hsound := hstage.2.act (fun _ _ _ _ h => (Call.symbolChunk.inj h).2.1) hstate.symbolSeqs
        hrecorded hw
      refine actSound_window hholds hquiet hstate (fun _ _ => rfl) hrequires hsound
        fun r hwindow => ?_
      rw [StageInv, server_sendOpt, sent_sendOpt]
      exact ⟨hstage.1, hwindow⟩
  | objects w =>
    simp only [uploadStage] at hact
    split at hact
    · next hexit =>
      obtain rfl := Option.some.inj hact
      exact actSound_stage hquiet hstate ⟨hstage.1, hstage.2.1, hstage.2.2.exit hexit,
        (fun _ h => by cases h)⟩
    · obtain rfl := Option.some.inj hact
      exact actSound_failed
    · obtain ⟨⟨w', r⟩, hw, rfl⟩ := Option.map_eq_some_iff.mp hact
      have hrecorded : ∀ tag rep, e = .inl (tag, rep) → rep.accepted = true → ∀ seq chunk,
          net.sent[tag]? = some (.objectChunk state.projectId seq chunk) →
            ⟨state.projectId, seq⟩ ∈ net.server.objectChunks := by
        intro tag rep he haccepted seq chunk hsent
        subst he
        exact ensures_of_enabled hholds henabled hsent haccepted
      have hrequires : ∀ c ∈ u.objectChunks, (uploadTerms u).Requires
          (.objectChunk state.projectId c.1 c.2) net.server := fun c hc => ⟨hstate.live, hc, hstage.2.1⟩
      have hsound := hstage.2.2.act (fun _ _ _ _ h => (Call.objectChunk.inj h).2.1) hstate.objectSeqs
        hrecorded hw
      refine actSound_window hholds hquiet hstate (fun _ _ => rfl) hrequires hsound
        fun r hwindow => ?_
      rw [StageInv, server_sendOpt, sent_sendOpt]
      exact ⟨hstage.1, hstage.2.1, hwindow⟩
  | finalizing tag =>
    cases tag with
    | none =>
      simp only [uploadStage] at hact
      split at hact
      swap
      · cases hact
      obtain rfl := Option.some.inj hact
      refine actSound_send hholds hquiet hstate rfl hstate.live
        ⟨hstage.1, hstage.2.1, hstage.2.2.1, ?_⟩
      intro t ht
      obtain rfl := Option.some.inj ht
      exact getElem?_send_length
    | some tag =>
      simp only [uploadStage] at hact
      split at hact
      swap
      · cases hact
      next tag' reply =>
      split at hact
      swap
      · cases hact
      next htag =>
      obtain rfl := htag
      have hsent := hstage.2.2.2 tag' rfl
      split at hact
      · obtain rfl := Option.some.inj hact
        refine ⟨(fun _ h => by cases h), hquiet, ensures_of_enabled hholds henabled hsent,
          hstage.2.1, hstage.2.2.1, ?_⟩
        intro file hfile entry hentry
        exact (hstage.1 file hfile entry hentry).resolve_right fun ⟨_, hb, _⟩ => by cases hb
      · obtain rfl := Option.some.inj hact
        exact actSound_failed

/-- Only the projects have been asked for when a deletion is sent. -/
theorem actSound_delete (hquiet : NoDelete net) (hearly : ∀ call ∈ net.sent, call.isEarly = true)
    (projectId : ℤ) :
    ActSound hashBytes hallowed net (.deleting net.sent.length, some (.deleteProject projectId)) := by
  constructor
  · intro call hcall
    obtain rfl := Option.some.inj hcall
    refine ⟨trivial, ?_, ?_, ?_⟩
    · intro p hp call₀ hcall₀ hinterferes
      cases hinterferes.2
    · intro call' hcall' hinterferes
      have hlate : call'.isEarly = false := hinterferes.2
      rw [hearly call' hcall'] at hlate
      cases hlate
    · intro hinterferes
      cases hinterferes.2
  · -- it is the one deletion under way
    intro p hp hne call hcall
    rcases List.mem_append.mp hp with hp | hp
    · obtain ⟨call₀, hcall₀, -⟩ := hholds.pending p hp
      obtain rfl := Option.some.inj ((getElem?_send hcall₀).symm.trans hcall)
      exact hquiet p hp call₀ hcall₀
    · obtain rfl := List.mem_singleton.mp hp
      exact absurd rfl hne

omit hholds in
/-- Nothing is under way before the first request. -/
theorem noDelete_of_nil (hsent : net.sent = []) : NoDelete net := by
  intro p hp call hcall
  rw [hsent] at hcall
  cases hcall

/-- **What the client does keeps what it knows.** -/
theorem phaseInv_act {phase : UploadPhase} {e : Event Reply Tick}
    {out : UploadPhase × Option Call} (h : PhaseInv u net phase) (henabled : net.Enables e)
    (hact : uploadClient u phase net.sent.length e = some out) :
    ActSound hashBytes hallowed net out := by
  unfold uploadClient at hact
  split at hact
  · cases hact
  · cases hact
  · obtain rfl := Option.some.inj hact
    exact actSound_failed
  · -- the projects are listed when an old one is to go
    have hquiet := noDelete_of_nil h
    obtain rfl := Option.some.inj hact
    split
    · refine ⟨?_, hquiet.send hholds rfl, ?_, getElem?_send_length⟩
      · intro call hcall
        obtain rfl := Option.some.inj hcall
        exact admits_of_noDelete hquiet rfl trivial
      · intro call hcall
        rcases List.mem_append.mp hcall with hcall | hcall
        · rw [show net.sent = [] from h] at hcall
          cases hcall
        · obtain rfl := List.mem_singleton.mp hcall
          rfl
    · exact actSound_create hholds hquiet
  · split at hact
    swap
    · cases hact
    split at hact
    · obtain rfl := Option.some.inj hact
      split
      · exact actSound_delete hholds h.1 h.2.1 _
      · exact actSound_create hholds h.1
    · obtain rfl := Option.some.inj hact
      exact actSound_failed
  · next tag tag' reply =>
    split at hact
    swap
    · cases hact
    next htag =>
    obtain rfl := htag
    obtain rfl := Option.some.inj hact
    split
    · -- the deletion has been answered, so it is not under way any more
      refine actSound_create hholds fun p hp call hcall => h p hp ?_ call hcall
      intro heq
      exact hholds.answered _ henabled p.2 (heq ▸ hp)
    · exact actSound_failed
  · next tag tag' reply =>
    split at hact
    swap
    · cases hact
    next htag =>
    obtain rfl := htag
    obtain ⟨hquiet, rootPath, symbolTotal, objectTotal, hsent⟩ := h
    split at hact
    · next projectId resumed =>
      have hlive : net.server.Live u.name projectId := ensures_of_enabled hholds henabled hsent
      obtain rfl := Option.some.inj hact
      split
      · refine ⟨?_, hquiet.send hholds rfl, getElem?_send_length⟩
        intro call hcall
        obtain rfl := Option.some.inj hcall
        exact admits_of_noDelete hquiet rfl hlive
      · exact actSound_enter hquiet ⟨hlive, List.forall_mem_nil _, List.forall_mem_nil _⟩
    · obtain rfl := Option.some.inj hact
      exact actSound_failed
  · next tag projectId tag' reply =>
    split at hact
    swap
    · cases hact
    next htag =>
    obtain rfl := htag
    obtain ⟨hquiet, hsent⟩ := h
    have hlive : net.server.Live u.name projectId :=
      hholds.requires _ (List.mem_of_getElem? hsent)
    split at hact
    · next symbolSeqs objectSeqs =>
      obtain rfl := Option.some.inj hact
      obtain ⟨hsymbols, hobjects⟩ := ensures_of_enabled hholds henabled hsent
      exact actSound_enter hquiet ⟨hlive, hsymbols, hobjects⟩
    · obtain rfl := Option.some.inj hact
      exact actSound_enter hquiet ⟨hlive, List.forall_mem_nil _, List.forall_mem_nil _⟩
    · obtain rfl := Option.some.inj hact
      exact actSound_failed
  · exact actSound_uploadStage hholds henabled h.1 h.2.1 h.2.2 hact
  · cases hact

end Act

/-! ### Runs -/

/-- Runs of the client and its server, from the first step of the client on. -/
def UploadRun (hashBytes : Bytes → Text) (allowed : Store → Request → Prop) (u : UploadArgs)
    (s : Store) (sys : System Store Call ServerJob Reply UploadPhase) : Prop :=
  ReflTransGen (Exchange.Step (uploadService hashBytes allowed) (uploadClient u))
    ⟨.start, s, [], [], []⟩ sys

/-- What is known of a client and its server in every run. -/
theorem uploadInv_of_run (hallowed : ∀ s req, allowed s req → Store.Spares u.name s req)
    {sys : System Store Call ServerJob Reply UploadPhase} (hs : s.Filed)
    (hrun : UploadRun hashBytes allowed u s sys) :
    (uploadContract hashBytes hallowed).Holds sys.net ∧ PhaseInv u sys.net sys.client := by
  refine invariant_of_run (uploadContract hashBytes hallowed) (C := fun phase net =>
    PhaseInv u net phase) ?_ ?_ hrun (Contract.holds_initial hs) rfl
  · intro phase net net' hholds h hstep
    exact phaseInv_netStep hholds hstep h
  · intro phase net e phase' r hholds h henabled hact
    exact phaseInv_act hholds h henabled hact

/-- **An upload that is done has been delivered.**  Requests and responses may be lost, chunks
may be sent again and worked on in any order, and others may use the server, as long as they do
not delete the project. -/
theorem uploadDelivered_of_run (hallowed : ∀ s req, allowed s req → Store.Spares u.name s req)
    {sys : System Store Call ServerJob Reply UploadPhase} (hs : s.Filed)
    (hrun : UploadRun hashBytes allowed u s sys) (hdone : sys.client = .done projectId) :
    UploadDelivered u sys.net.server projectId := by
  obtain ⟨-, hphase⟩ := uploadInv_of_run hallowed hs hrun
  rw [hdone] at hphase
  exact hphase.2

/-- **Object chunks are sent when all symbol chunks are committed**, and these stay committed as
long as an object chunk may be under way. -/
theorem symbolChunks_of_sent_objectChunk
    (hallowed : ∀ s req, allowed s req → Store.Spares u.name s req)
    {sys : System Store Call ServerJob Reply UploadPhase} (hs : s.Filed)
    (hrun : UploadRun hashBytes allowed u s sys) {seq : ℤ} {chunk : UploadProject}
    (hsent : .objectChunk projectId seq chunk ∈ sys.net.sent) :
    ∀ c ∈ u.symbolChunks, ⟨projectId, c.1⟩ ∈ sys.net.server.symbolChunks := by
  obtain ⟨hholds, -⟩ := uploadInv_of_run hallowed hs hrun
  exact (hholds.requires _ hsent).2.2

/-! ### What the server keeps -/

/-- A request that a handler may run for the upload: chunks are the upload's own. -/
def OfUpload (u : UploadArgs) : Request → Prop
  | .symbolChunk _ seq chunk => (seq, chunk) ∈ u.symbolChunks
  | .objectChunk _ seq chunk => (seq, chunk) ∈ u.objectChunks
  | _ => True

theorem ofUpload_of_request {call : Call} {job : ServerJob} {s : Store} {rootHash : Bytes}
    {req : Request} (hrequires : (uploadTerms u).Requires call s)
    (hprogress : (uploadTerms u).Progress call job s) (hjob : job.request rootHash = some req) :
    OfUpload u req := by
  cases job with
  | call call' =>
    obtain rfl : call' = call := hprogress
    cases call' with
    | symbolChunk projectId seq chunk =>
      obtain rfl := Option.some.inj hjob
      exact hrequires.2
    | objectChunk projectId seq chunk =>
      obtain rfl := Option.some.inj hjob
      exact hrequires.2.1
    | listProjects | projectDetails | checkContents => cases hjob
    | _ =>
      obtain rfl := Option.some.inj hjob
      exact trivial
  | deleteMarked =>
    obtain rfl := Option.some.inj hjob
    exact trivial
  | _ => cases hjob

section Stable

variable {I : Store → Prop}

/-- What the requests of the upload keep, and those of the others, a step of the network does. -/
theorem stable_netStep {hallowed : ∀ s req, allowed s req → Store.Spares u.name s req}
    (hown : ∀ {s req c}, I s → OfUpload u req → s.handle hashBytes req = .ok c → I c.store)
    (hothers : ∀ {s req c}, I s → allowed s req → s.handle hashBytes req = .ok c → I c.store)
    {net net' : UploadNet} (hholds : (uploadContract hashBytes hallowed).Holds net)
    (hstep : NetStep (uploadService hashBytes allowed) net net') (h : I net.server) :
    I net'.server := by
  have hcalm : ∀ p ∈ net.pending, ∀ call, net.sent[p.1]? = some call → True :=
    fun _ _ _ _ => trivial
  refine hstep.stable hholds hcalm ?_ ?_ h
  · intro call job s s' out _ h hrequires hprogress _ hserve
    rcases hserve with ⟨rootHash, hserve⟩ | ⟨rfl, -⟩
    swap
    · exact h
    rcases Store.serveJob_cases hserve with rfl | ⟨req, c, hjob, hreq, rfl⟩
    · exact h
    · exact hown h (ofUpload_of_request hrequires hprogress hjob) hreq
  · intro s s' _ h hstep
    obtain ⟨req, c, hallows, hc, rfl⟩ := hstep
    exact hothers h hallows hc

/-- **What each request keeps holds of the server in every run.** -/
theorem stable_of_run (hallowed : ∀ s req, allowed s req → Store.Spares u.name s req)
    (hown : ∀ {s req c}, I s → OfUpload u req → s.handle hashBytes req = .ok c → I c.store)
    (hothers : ∀ {s req c}, I s → allowed s req → s.handle hashBytes req = .ok c → I c.store)
    {s : Store} {sys : System Store Call ServerJob Reply UploadPhase} (hfiled : s.Filed)
    (hs : I s) (hrun : UploadRun hashBytes allowed u s sys) : I sys.net.server := by
  refine (invariant_of_run (uploadContract hashBytes hallowed) (C := fun phase net =>
    PhaseInv u net phase ∧ I net.server) ?_ ?_ hrun (Contract.holds_initial hfiled)
      ⟨rfl, hs⟩).2.2
  · intro phase net net' hholds h hstep
    exact ⟨phaseInv_netStep hholds hstep h.1, stable_netStep hown hothers hholds hstep h.2⟩
  · intro phase net e phase' r hholds h henabled hact
    obtain ⟨hadmits, hphase⟩ := phaseInv_act hholds h.1 henabled hact
    refine ⟨hadmits, hphase, ?_⟩
    rw [server_sendOpt]
    exact h.2

end Stable

end Protocol

/-! ### A run -/

/-- A move of the client or of the server. -/
inductive UploadMove where
  | serve (tag : ℕ) (rootHash : Bytes)
  | deliver (tag : ℕ)
  | tick (tick : Tick)

/-- The client acts on an event. -/
def uploadAct (u : UploadArgs) (sys : System Store Call ServerJob Reply UploadPhase)
    (e : Event Reply Tick) : Option (System Store Call ServerJob Reply UploadPhase) :=
  (uploadClient u sys.client sys.net.sent.length e).map fun out =>
    ⟨out.1, sys.net.sendOpt (uploadService (fun _ => ['h']) fun _ _ => False) out.2⟩

/-- Make a move; all contents have the hash `h`. -/
def uploadMove (u : UploadArgs) (sys : System Store Call ServerJob Reply UploadPhase) :
    UploadMove → Option (System Store Call ServerJob Reply UploadPhase)
  | .serve tag rootHash =>
    match sys.net.pending.find? (·.1 == tag) with
    | none => none
    | some p => match sys.net.server.serveJob (fun _ => ['h']) rootHash p.2 with
      | (s', .inl job) => some ⟨sys.client,
          { sys.net with server := s', pending := (tag, job) :: sys.net.without tag }⟩
      | (s', .inr reply) => some ⟨sys.client,
          { sys.net with
            server := s'
            pending := sys.net.without tag
            replies := (tag, reply) :: sys.net.replies }⟩
  | .deliver tag => match sys.net.replies.find? (·.1 == tag) with
    | none => none
    | some p => uploadAct u sys (.inl p)
  | .tick tick => uploadAct u sys (.inr tick)

theorem step_of_uploadMove {u : UploadArgs}
    {sys sys' : System Store Call ServerJob Reply UploadPhase} {move : UploadMove}
    (h : uploadMove u sys move = some sys') :
    Exchange.Step (uploadService (fun _ => ['h']) fun _ _ => False) (uploadClient u) sys sys' := by
  have hact : ∀ {e : Event Reply Tick}, sys.net.Enables e → uploadAct u sys e = some sys' →
      Exchange.Step (uploadService (fun _ => ['h']) fun _ _ => False) (uploadClient u) sys sys' := by
    intro e henabled h
    obtain ⟨out, hout, rfl⟩ := Option.map_eq_some_iff.mp h
    exact .act henabled hout
  cases move with
  | serve tag rootHash =>
    simp only [uploadMove] at h
    split at h
    · cases h
    next p hfind =>
    obtain rfl : p.1 = tag := by simpa using List.find?_some hfind
    have hp := List.mem_of_find?_eq_some hfind
    split at h
    · next s' job hserve =>
      obtain rfl := Option.some.inj h
      exact .net (.work hp (Or.inl ⟨rootHash, hserve⟩))
    · next s' reply hserve =>
      obtain rfl := Option.some.inj h
      exact .net (.answer hp (Or.inl ⟨rootHash, hserve⟩))
  | deliver tag =>
    simp only [uploadMove] at h
    split at h
    · cases h
    next p hfind =>
    have hp : p ∈ sys.net.replies := List.mem_of_find?_eq_some hfind
    exact hact (e := .inl p) hp h
  | tick tick => exact hact (e := .inr tick) trivial h

/-- A project with a symbol, an object and its content. -/
def smallUpload : UploadArgs :=
  ⟨['p'], ['/', 'p'], [⟨1, ['f'], 1, 0⟩], [⟨1, [], ['/', 'a'], [], [], ['h'], [], []⟩],
    [[⟨['h'], [7]⟩]], 1, false⟩

/-- The response to the symbol chunk is lost, and the chunk is committed once though it is sent
twice. -/
def smallMoves : List UploadMove :=
  [.tick .proceed, .serve 0 [1], .deliver 0, .tick .proceed, .serve 1 [], .deliver 1,
    .tick .proceed, .tick .proceed, .serve 2 [], .deliver 2, .tick .proceed, .tick .proceed,
    .serve 3 [], .tick (.lost 3), .serve 4 [], .deliver 4, .tick .proceed, .tick .proceed,
    .serve 5 [], .deliver 5, .tick .proceed, .tick .proceed, .serve 6 [], .deliver 6]

/-- The upload comes to its end. -/
theorem exists_run_small : ∃ sys,
    UploadRun (fun _ => ['h']) (fun _ _ => False) smallUpload (.initial [0]) sys ∧
      sys.client = .done 1 ∧ sys.net.sent.length = 7 ∧
        ∃ chunk, .objectChunk 1 0 chunk ∈ sys.net.sent := by
  obtain ⟨sys, htrace, hobs⟩ := Option.map_eq_some_iff.mp (show
    (Runs.trace (uploadMove smallUpload) ⟨.start, .initial [0], [], [], []⟩ smallMoves).map
      (fun sys => decide (sys.client = .done 1 ∧ sys.net.sent.length = 7 ∧
        .objectChunk 1 0 ⟨[], [], smallUpload.allObjects, []⟩ ∈ sys.net.sent)) = some true
    by decide +kernel)
  obtain ⟨hdone, hlength, hsent⟩ := of_decide_eq_true hobs
  have hrun : UploadRun (fun _ => ['h']) (fun _ _ => False) smallUpload (.initial [0]) sys :=
    Runs.run_of_trace (uploadMove smallUpload) step_of_uploadMove htrace
  exact ⟨sys, hrun, hdone, hlength, _, hsent⟩

/-- The small upload has been delivered. -/
theorem uploadDelivered_small : ∃ sys,
    UploadRun (fun _ => ['h']) (fun _ _ => False) smallUpload (.initial [0]) sys ∧
      sys.client = .done 1 ∧ sys.net.sent.length = 7 ∧
        UploadDelivered smallUpload sys.net.server 1 := by
  obtain ⟨sys, hrun, hdone, hlength, -⟩ := exists_run_small
  exact ⟨sys, hrun, hdone, hlength, uploadDelivered_of_run (fun _ _ h => h.elim)
    (Store.Filed.initial (by decide)) hrun hdone⟩

/-- The object chunk of the small upload is sent when its symbol chunk is committed. -/
theorem symbolChunks_small : ∃ sys chunk,
    UploadRun (fun _ => ['h']) (fun _ _ => False) smallUpload (.initial [0]) sys ∧
      .objectChunk 1 0 chunk ∈ sys.net.sent ∧
        ∀ c ∈ smallUpload.symbolChunks, ⟨1, c.1⟩ ∈ sys.net.server.symbolChunks := by
  obtain ⟨sys, hrun, -, -, chunk, hsent⟩ := exists_run_small
  exact ⟨sys, chunk, hrun, hsent, symbolChunks_of_sent_objectChunk (fun _ _ h => h.elim)
    (Store.Filed.initial (by decide)) hrun hsent⟩

end Askl
