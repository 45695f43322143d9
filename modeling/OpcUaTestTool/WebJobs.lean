import OpcUaTestTool.ServiceRuns

/-! Jobs that are started on the pages of the web application: the scripts page makes a request of
the selected script and target, the jobs page posts the request of an entry of its list again. -/
namespace OpcUaTestTool.WebJobs
open FiniteMap Numerals FileSystem Store JobScheduler JsonValues JsonDump JsonSound JsonLibrary
open TestRunner ScriptPaths Api ServedBodies ServiceRuns Transition

/-! ### Values in the browser -/

def Numeric : Json → Prop
  | .integer _ => True
  | .float _ => True
  | .null => True
  | _ => False

mutual

/-- A value whose numbers are read as doubles, and are written as those. -/
def revive (number : Json → Json) : Json → Json
  | .integer n => number (.integer n)
  | .float x => number (.float x)
  | .array elements => .array (reviveElements number elements)
  | .object members => .object (reviveMembers number members)
  | .null => .null
  | .boolean b => .boolean b
  | .string s => .string s

def reviveElements (number : Json → Json) : List Json → List Json
  | [] => []
  | j :: elements => revive number j :: reviveElements number elements

def reviveMembers (number : Json → Json) : List (Bytes × Json) → List (Bytes × Json)
  | [] => []
  | (key, j) :: members => (key, revive number j) :: reviveMembers number members

end

/- `stringify` is `JSON.stringify` of what `JSON.parse` makes of the text of a value. -/
structure Browser (L : Library) where
  number : Json → Json
  numeric : ∀ j, Numeric (number j)
  stringify : Json → Bytes
  parse_stringify : ∀ j, L.Value j → L.parse (stringify j) = some (revive number j)

/-! ### The pages -/

structure Script where
  name : Bytes

structure Target where
  host : Bytes
  port : Nat

/- `undefined` where a member is missing. -/
structure FinishedJob where
  request : Option Json
  result : Option Json

/-- The request of `ScriptComponent.newJob` -/
def ScriptComponent.newJob (script : Script) (target : Target) : Json :=
  .object [(text "name", .string (text "myJob")), (text "script", .string script.name),
    (text "serverUri",
      .string (text "opc.tcp://" ++ target.host ++ text ":" ++ decimalNat target.port))]

/-- The `map` of `JobsService.getJobs`; it throws where the answer is of another form. -/
def finishedJobs (L : Library) (body : Bytes) : Option (List FinishedJob) := do
  match ← (← L.parse body).at (text "response") with
  | .array elements =>
    elements.mapM fun
      | .null => none
      | data => some ⟨data.at (text "request"), data.at (text "result")⟩
  | _ => none

/-- The id that an entry shows. -/
def FinishedJob.id (job : FinishedJob) : Option Int :=
  match job.result.bind fun result => result.at (text "id") with
  | some (.integer id) => some id
  | _ => none

/- The service, and all entries that were listed on any of the pages: each of them may still be the
selected one somewhere. Under the ids that the service gave them, the requests are kept for which
jobs were started on a page, and each job that was run again, with the job it was run as. -/
structure Site where
  world : World
  entries : List FinishedJob := []
  asked : Map Int Json := ∅
  reruns : List (Int × Int) := []

inductive Action where
  | service (a : ServiceRuns.Action)
  | getJobs (env : Env)
  | newJob (env : Env) (script : Script) (target : Target)
  | again (env : Env) (n : Nat)

variable {L : Library} (B : Browser L) (cwd : Path)

/-- What is posted; no body for `undefined`. -/
def posted (request : Option Json) : Bytes := (request.map B.stringify).getD []

variable (L) in
/-- The id that the answer to a post holds. -/
def idOf (s : Service) (env : Env) (body : Bytes) : Option Int :=
  match (handle L.parse L.dump cwd s env (.postJobs body)).1 with
  | .ok content => answeredId L content
  | .error _ => none

/-- `JobsService.createJob` -/
def createJob (s : Site) (env : Env) (request : Option Json) : Option (Option Int × Site) :=
  (ServiceRuns.step L cwd s.world (.request env (.postJobs (posted B request)))).map
    fun world =>
      let id := idOf L cwd s.world.service env (posted B request)
      (id, { s with
        world := world
        asked := match id, request with
          | some id, some request => s.asked.insert id request
          | _, _ => s.asked })

/-- The request of `JobsService.getJobs` -/
def listing : HttpRequest := .getJobs (some (text "100000")) (some (text "5"))

def step (s : Site) : Action → Option Site
  | .service a =>
    (ServiceRuns.step L cwd s.world a).map fun world => { s with world := world }
  | .getJobs env =>
    (ServiceRuns.step L cwd s.world (.request env listing)).map fun world =>
      { s with
        world := world
        entries := match (handle L.parse L.dump cwd s.world.service env listing).1 with
          | .ok content => s.entries ++ (finishedJobs L content.body).getD []
          | .error _ => s.entries }
  | .newJob env script target =>
    (createJob B cwd s env (some (ScriptComponent.newJob script target))).map Prod.snd
  | .again env n =>
    match s.entries[n]? with
    | none => none
    | some job =>
      (createJob B cwd s env job.request).map fun r =>
        match job.id, r.1 with
        | some id, some id' => { r.2 with reruns := (id, id') :: r.2.reruns }
        | _, _ => r.2

/-- The actions of the service are careful, those that the pages take there too; the names that the
pages work with are well-formed. -/
def Careful (s : Site) : Action → Prop
  | .service a => ServiceRuns.Careful L cwd s.world a
  | .getJobs _ => True
  | .newJob env script target =>
    JsonText.utf8 script.name = true ∧ JsonText.utf8 target.host = true ∧
      ServiceRuns.Careful L cwd s.world
        (.request env (.postJobs (posted B (some (ScriptComponent.newJob script target)))))
  | .again env n => ∀ job ∈ s.entries[n]?, ServiceRuns.Careful L cwd s.world
      (.request env (.postJobs (posted B job.request)))

/-- Nothing was done on the pages, and the store is one without results. -/
structure Fresh (root : Bytes) (s : Site) : Prop where
  world : ServiceRuns.Fresh cwd root s.world
  entries : s.entries = []
  asked : s.asked = ∅
  reruns : s.reruns = []

/-- What was posted under an id. -/
def Posted (L : Library) (w : World) (id : Int) (request : Json) : Prop :=
  ∃ body, w.accepted.lookup id = some body ∧ L.parse body = some request

/- The jobs that were started on the pages are those that were asked for, and the entries that are
listed are those of accepted jobs. -/
structure Sane (root : Bytes) (s : Site) : Prop where
  world : ServiceRuns.Sane L cwd root s.world
  asked : ∀ id request, s.asked.lookup id = some request →
    Posted L s.world id (revive B.number request)
  entries : ∀ job ∈ s.entries, ∃ id request, job.id = some id ∧ job.request = some request ∧
    Posted L s.world id request
  reruns : ∀ p ∈ s.reruns, ∃ request, Posted L s.world p.1 request ∧
    Posted L s.world p.2 (revive B.number request)

variable {B cwd} {root : Bytes}

theorem reviveMembers_eq (number : Json → Json) (members : List (Bytes × Json)) :
    reviveMembers number members = members.map fun m => (m.1, revive number m.2) := by
  induction members with
  | nil => rw [reviveMembers, List.map_nil]
  | cons m members ih =>
    obtain ⟨key, j⟩ := m
    rw [reviveMembers, ih, List.map_cons]

/-- Strings stay what they are, and nothing becomes a string. -/
theorem revive_eq_string (B : Browser L) {j : Json} {s : Bytes} :
    revive B.number j = .string s ↔ j = .string s := by
  cases j with
  | integer n =>
    have h := B.numeric (.integer n)
    constructor
    · intro heq
      rw [revive] at heq
      rw [heq] at h
      cases h
    · intro heq
      cases heq
  | float x =>
    have h := B.numeric (.float x)
    constructor
    · intro heq
      rw [revive] at heq
      rw [heq] at h
      cases h
    · intro heq
      cases heq
  | string s' => rw [revive]
  | null => simp [revive]
  | boolean b => simp [revive]
  | array elements => simp [revive]
  | object members => simp [revive]

theorem lookup_map (f : Json → Json) (members : List (Bytes × Json)) (key : Bytes) :
    (members.map fun m => (m.1, f m.2)).lookup key = (members.lookup key).map f := by
  induction members with
  | nil => rfl
  | cons m members ih =>
    obtain ⟨k, v⟩ := m
    by_cases hk : key = k
    · subst hk
      simp
    · rw [List.map_cons, lookup_cons_ne hk, lookup_cons_ne hk, ih]

theorem at_revive (B : Browser L) (j : Json) (key : Bytes) :
    (revive B.number j).at key = (j.at key).map (revive B.number) := by
  have hnumeric {j : Json} (h : Numeric j) : j.at key = none := by
    cases j with
    | object members => cases h
    | _ => rfl
  cases j with
  | integer n => exact hnumeric (B.numeric (.integer n))
  | float x => exact hnumeric (B.numeric (.float x))
  | object members =>
    rw [revive, reviveMembers_eq]
    exact lookup_map (revive B.number) members key
  | _ => simp [revive, Json.at]

theorem at_revive_string (B : Browser L) {j : Json} {key s : Bytes} :
    (revive B.number j).at key = some (.string s) ↔ j.at key = some (.string s) := by
  rw [at_revive]
  cases j.at key with
  | none => simp
  | some v => simp [revive_eq_string]

/-- A request is for the same job before and after it was in a browser. -/
theorem isJobOf_revive (B : Browser L) {request : Json} {scriptDir : Bytes} {job : Job} :
    IsJobOf (revive B.number request) scriptDir job ↔ IsJobOf request scriptDir job := by
  simp only [IsJobOf, at_revive_string]

/-! ### Steps -/

/-- The answer to a post that was accepted tells the next id. -/
theorem idOf_eq {w w' : World} (hcounter : InInt w.service.scheduler.db.m_jobId) {env : Env}
    {body : Bytes} (h : ServiceRuns.step L cwd w (.request env (.postJobs body)) = some w') :
    idOf L cwd w.service env body = some w.service.scheduler.db.m_jobId := by
  cases hc : w.service.scheduler.create (treeOf cwd w.service.scheduler.db w.service.disk) body
      env.storing env.fork with
  | error e =>
    simp only [ServiceRuns.step, handle, answer, apiCallback, Service.newJob, hc] at h
    cases h
  | ok c =>
    rw [← (create_spec hc).1] at hcounter ⊢
    rw [← answeredId_json L hcounter]
    simp only [idOf, handle, answer, apiCallback, Service.newJob, hc]
    rfl

theorem Posted.kept {w w' : World} (h : ServiceRuns.Sane L cwd root w)
    {a : ServiceRuns.Action} (hs : ServiceRuns.step L cwd w a = some w') {id : Int}
    {request : Json} (hp : Posted L w id request) : Posted L w' id request := by
  obtain ⟨body, hl, hparse⟩ := hp
  exact ⟨body, h.accepted_kept hs hl, hparse⟩

theorem mem_of_mapM {α β : Type} {f : α → Option β} {l : List α} {bs : List β}
    (h : l.mapM f = some bs) {b : β} (hb : b ∈ bs) : ∃ a ∈ l, f a = some b := by
  induction l generalizing bs with
  | nil =>
    obtain rfl := Option.some.inj h
    cases hb
  | cons a l ih =>
    simp only [List.mapM_cons, bind, Option.bind_eq_some_iff, pure, Option.some.injEq] at h
    obtain ⟨b', hb', bs', hbs', rfl⟩ := h
    cases List.mem_cons.mp hb with
    | inl heq => exact ⟨a, List.mem_cons_self, heq ▸ hb'⟩
    | inr hmem =>
      obtain ⟨a', ha', hfa⟩ := ih hbs' hmem
      exact ⟨a', List.mem_cons_of_mem a ha', hfa⟩

theorem Posted.unique {w : World} {id : Int} {request request' : Json} (h : Posted L w id request)
    (h' : Posted L w id request') : request = request' := by
  obtain ⟨body, hl, hparse⟩ := h
  obtain ⟨body', hl', hparse'⟩ := h'
  obtain rfl : body = body' := Option.some.inj (hl.symm.trans hl')
  exact Option.some.inj (hparse.symm.trans hparse')

theorem forall₂_mem {α β : Type} {R : α → β → Prop} {as : List α} {bs : List β}
    (h : List.Forall₂ R as bs) {b : β} (hb : b ∈ bs) : ∃ a, a ∈ as ∧ R a b := by
  induction h with
  | nil => cases hb
  | cons hab _ ih =>
    cases List.mem_cons.mp hb with
    | inl heq => exact ⟨_, List.mem_cons_self, heq ▸ hab⟩
    | inr hmem =>
      obtain ⟨a, ha, hr⟩ := ih hmem
      exact ⟨a, List.mem_cons_of_mem _ ha, hr⟩

/-- The entries of an answer are those of accepted jobs. -/
theorem entries_of_getJobs {w : World} (h : ServiceRuns.Sane L cwd root w) {env : Env}
    {content : Content}
    (hanswer : (handle L.parse L.dump cwd w.service env listing).1 = .ok content)
    {job : FinishedJob} (hjob : job ∈ (finishedJobs L content.body).getD []) :
    ∃ id request, job.id = some id ∧ job.request = some request ∧ Posted L w id request := by
  obtain ⟨_, _, _, records, _, _, _, hrecords, hparse⟩ := h.of_getJobs hanswer
  have hresponse : (Json.object [(text "ok", .boolean true),
      (text "response", .array records)]).at (text "response") = some (.array records) := rfl
  simp only [finishedJobs, hparse, hresponse, bind, Option.bind_some] at hjob
  cases hmap : records.mapM (fun data => match data with
      | .null => none
      | data => some (⟨data.at (text "request"), data.at (text "result")⟩ : FinishedJob)) with
  | none =>
    rw [hmap] at hjob
    cases hjob
  | some jobs =>
    rw [hmap, Option.getD_some] at hjob
    obtain ⟨record, hrecord, hentry⟩ := mem_of_mapM hmap hjob
    cases hrecords with
    | inr hempty =>
      rw [hempty.2] at hrecord
      cases hrecord
    | inl hall =>
      obtain ⟨id, _, _, body, haccepted, request, job', e, hrequest, _, rfl⟩ :=
        forall₂_mem hall hrecord
      obtain ⟨result, hresult, hid, _⟩ := isResult_output (Job.execute job' e) id request
      have hat : ((Job.execute job' e).output id request).at (text "request") = some request :=
        lookup_setMember_self _ _ _
      obtain rfl : ⟨some request, some result⟩ = job := by
        rw [← hat, ← hresult]
        exact Option.some.inj hentry
      refine ⟨_, request, ?_, rfl, body, haccepted, hrequest⟩
      simp only [FinishedJob.id, Option.bind_some, hid]

/-- A job that was started on a page is accepted with the request that it was started for. -/
theorem createJob_spec {s s' : Site} {env : Env} {request : Json} {id : Option Int}
    (hcounter : InInt s.world.service.scheduler.db.m_jobId) (hsound : L.Value request)
    (h : createJob B cwd s env (some request) = some (id, s')) :
    ∃ world, ServiceRuns.step L cwd s.world
        (.request env (.postJobs (posted B (some request)))) = some world ∧
      id = some s.world.service.scheduler.db.m_jobId ∧
      s' = { s with
        world := world
        asked := s.asked.insert s.world.service.scheduler.db.m_jobId request } ∧
      Posted L world s.world.service.scheduler.db.m_jobId (revive B.number request) := by
  obtain ⟨world, hs, heq⟩ := Option.map_eq_some_iff.mp h
  have hid := idOf_eq hcounter hs
  simp only [hid, Prod.mk.injEq] at heq
  refine ⟨world, hs, heq.1.symm, heq.2.symm, B.stringify request, ?_,
    B.parse_stringify request hsound⟩
  obtain ⟨_, _, _, rfl⟩ := step_postJobs hcounter hs
  exact AList.lookup_insert _

theorem Fresh.sane {s : Site} (h : Fresh cwd root s) : Sane B cwd root s := by
  refine ⟨h.world.sane, ?_, ?_, ?_⟩
  · intro id request hl
    rw [h.asked] at hl
    cases hl
  · intro job hjob
    rw [h.entries] at hjob
    cases hjob
  · intro p hp
    rw [h.reruns] at hp
    cases hp

/-- The service may do anything that keeps the jobs. -/
theorem Sane.service {s : Site} (h : Sane B cwd root s) (hroot : 0 ∉ root)
    {a : ServiceRuns.Action} {world : World}
    (hcareful : ServiceRuns.Careful L cwd s.world a)
    (hs : ServiceRuns.step L cwd s.world a = some world) :
    Sane B cwd root { s with world := world } := by
  refine ⟨h.world.step hroot hcareful hs, ?_, ?_, ?_⟩
  · intro id request hl
    exact (h.asked id request hl).kept h.world hs
  · intro job hjob
    obtain ⟨id, request, hid, hrequest, hposted⟩ := h.entries job hjob
    exact ⟨id, request, hid, hrequest, hposted.kept h.world hs⟩
  · intro p hp
    obtain ⟨request, hold, hnew⟩ := h.reruns p hp
    exact ⟨request, hold.kept h.world hs, hnew.kept h.world hs⟩

theorem Sane.getJobs {s : Site} (h : Sane B cwd root s) {env : Env} {world : World}
    (hs : ServiceRuns.step L cwd s.world (.request env listing) = some world)
    (hsane : Sane B cwd root { s with world := world }) :
    Sane B cwd root { s with
      world := world
      entries := match (handle L.parse L.dump cwd s.world.service env listing).1 with
        | .ok content => s.entries ++ (finishedJobs L content.body).getD []
        | .error _ => s.entries } := by
  cases hanswer : (handle L.parse L.dump cwd s.world.service env listing).1 with
  | error e => exact hsane
  | ok content =>
    refine ⟨hsane.world, hsane.asked, ?_, hsane.reruns⟩
    intro job hjob
    cases List.mem_append.mp hjob with
    | inl hold => exact hsane.entries job hold
    | inr hnew =>
      obtain ⟨id, request, hid, hrequest, hposted⟩ := entries_of_getJobs h.world hanswer hnew
      exact ⟨id, request, hid, hrequest, hposted.kept h.world hs⟩

theorem Sane.createJob {s s' : Site} (h : Sane B cwd root s) (hroot : 0 ∉ root)
    {env : Env} {request : Json} (hsound : L.Value request) {id : Option Int}
    (hcareful : ServiceRuns.Careful L cwd s.world
      (.request env (.postJobs (posted B (some request)))))
    (hs : WebJobs.createJob B cwd s env (some request) = some (id, s')) :
    Sane B cwd root s' ∧ s'.reruns = s.reruns ∧
      (∀ id request, Posted L s.world id request → Posted L s'.world id request) ∧
      ∃ newId, id = some newId ∧ Posted L s'.world newId (revive B.number request) := by
  obtain ⟨world, hstep, hid, rfl, hposted⟩ := createJob_spec h.world.counter.2 hsound hs
  have hsane := h.service hroot hcareful hstep
  refine ⟨⟨hsane.world, ?_, hsane.entries, hsane.reruns⟩, rfl, ?_, _, hid, hposted⟩
  · intro id' request' hl
    cases lookup_insert_eq_some.mp hl with
    | inl hnew =>
      obtain ⟨rfl, rfl⟩ := hnew
      exact hposted
    | inr hold => exact hsane.asked id' request' hold.2
  · intro id' request' hold
    exact hold.kept h.world hstep

theorem sound_newJob {script : Script} {target : Target} (hname : JsonText.utf8 script.name = true)
    (hhost : JsonText.utf8 target.host = true) :
    L.Value (ScriptComponent.newJob script target) := by
  have hport : ∀ b ∈ decimalNat target.port, b < 0x80 := by
    simpa [decimal] using decimal_ascii target.port
  have huri : JsonText.utf8
      (text "opc.tcp://" ++ target.host ++ text ":" ++ decimalNat target.port) =
      true := by
    rw [List.append_assoc, List.append_assoc,
      JsonText.utf8_append_of_ascii (forall_bytes (by decide)), JsonArrays.utf8_append hhost,
      JsonText.utf8_append_of_ascii (forall_bytes (by decide))]
    exact utf8_ascii hport
  refine .object ?_ ?_ ?_
  · simp only [List.pairwise_cons, List.mem_cons, List.not_mem_nil, or_false, forall_eq_or_imp,
      forall_eq, false_imp_iff, implies_true, List.Pairwise.nil, and_true]
    decide
  · simp only [List.mem_cons, List.not_mem_nil, or_false, forall_eq_or_imp, forall_eq]
    exact ⟨rfl, rfl, rfl⟩
  · simp only [List.mem_cons, List.not_mem_nil, or_false, forall_eq_or_imp, forall_eq]
    exact ⟨.string rfl, .string hname, .string huri⟩

theorem Sane.step {s s' : Site} {a : Action} (h : Sane B cwd root s) (hroot : 0 ∉ root)
    (hcareful : Careful B cwd s a)
    (hs : step B cwd s a = some s') : Sane B cwd root s' := by
  cases a with
  | service a =>
    obtain ⟨world, hstep, rfl⟩ := Option.map_eq_some_iff.mp hs
    exact h.service hroot hcareful hstep
  | getJobs env =>
    obtain ⟨world, hstep, rfl⟩ := Option.map_eq_some_iff.mp hs
    have hcareful : ServiceRuns.Careful L cwd s.world (.request env listing) := trivial
    exact h.getJobs hstep (h.service hroot hcareful hstep)
  | newJob env script target =>
    obtain ⟨⟨id, s''⟩, hcreate, rfl⟩ := Option.map_eq_some_iff.mp hs
    obtain ⟨hname, hhost, hpost⟩ := hcareful
    exact (h.createJob hroot (sound_newJob hname hhost) hpost hcreate).1
  | again env n =>
    cases hn : s.entries[n]? with
    | none => simp [WebJobs.step, hn] at hs
    | some job =>
      simp only [WebJobs.step, hn] at hs
      obtain ⟨⟨id, s''⟩, hcreate, rfl⟩ := Option.map_eq_some_iff.mp hs
      obtain ⟨oldId, request, hid, hrequest, hold⟩ := h.entries job (List.mem_of_getElem? hn)
      have hpost := hcareful job hn
      rw [hrequest] at hcreate hpost
      have hsound : L.Value request := hold.elim fun body hbody => L.parse_sound hbody.2
      obtain ⟨hsane, hreruns, hkeep, newId, rfl, hnew⟩ :=
        h.createJob hroot hsound hpost hcreate
      dsimp only
      rw [hid]
      refine ⟨hsane.world, hsane.asked, hsane.entries, ?_⟩
      intro p hp
      cases List.mem_cons.mp hp with
      | inl heq => exact heq ▸ ⟨request, hkeep oldId request hold, hnew⟩
      | inr hmem => exact hsane.reruns p hmem

/-- Along careful runs from a store without results. -/
theorem Fresh.run {s s' : Site} (h : Fresh cwd root s) (hroot : 0 ∉ root)
    {as : List Action}
    (hcareful : Meets (WebJobs.step B cwd) (Careful B cwd) s as)
    (hrun : run (WebJobs.step B cwd) s as = some s') :
    Sane B cwd root s' :=
  run_invariant_of_meets (fun _ _ _ h hc hs => Sane.step h hroot hc hs) h.sane hcareful hrun

/-! ### A run -/

/- A browser that has integers only. -/
def keepInteger : Json → Json
  | .integer n => .integer n
  | _ => .null

theorem reviveElements_eq (number : Json → Json) (elements : List Json) :
    reviveElements number elements = elements.map (revive number) := by
  induction elements with
  | nil => rw [reviveElements, List.map_nil]
  | cons j elements ih => rw [reviveElements, ih, List.map_cons]

theorem value_keepInteger {j : Json} (h : sampleLibrary.Value j) :
    sampleLibrary.Value (revive keepInteger j) := by
  induction h with
  | null => exact .null
  | boolean b => exact .boolean b
  | integer h => exact .integer h
  | float _ => exact .null
  | string h => exact .string h
  | array _ ih =>
    rw [revive, reviveElements_eq]
    exact .array (List.forall_mem_map.mpr ih)
  | object order keys _ ih =>
    rw [revive, reviveMembers_eq]
    exact .object (List.pairwise_map.mpr order) (List.forall_mem_map.mpr keys)
      (List.forall_mem_map.mpr ih)

def sampleBrowser : Browser sampleLibrary where
  number := keepInteger
  numeric := by
    intro j
    cases j <;> trivial
  stringify j := sampleLibrary.dump (revive keepInteger j)
  parse_stringify := fun _ hj => sampleLibrary.parse_dump (value_keepInteger hj)

def freshSite : Site := { world := freshWorld }

def sampleJob : Json := ScriptComponent.newJob ⟨text "read.lua"⟩ ⟨text "localhost", 4840⟩

/-- A job is started on the scripts page, and its result is listed on the jobs page. -/
def listedRun : List Action :=
  [.newJob sampleEnv ⟨text "read.lua"⟩ ⟨text "localhost", 4840⟩,
    .service (.runner 0 sampleExecution .stored), .service (.jobFinished 11 12),
    .getJobs listingEnv]

theorem fresh_site : Fresh [] (text "/opt") freshSite := ⟨fresh_sample, rfl, rfl, rfl⟩

theorem careful_listedRun :
    Meets (step sampleBrowser []) (Careful sampleBrowser []) freshSite
      listedRun := by
  refine ⟨⟨rfl, rfl, rfl, by decide, ?_⟩, fun _ _ => ⟨clocked_sample, fun _ _ => ⟨trivial,
    fun _ _ => ⟨trivial, fun _ _ => trivial⟩⟩⟩⟩
  intro p hp
  obtain rfl : [text "opt", text "jobs", text "requests"] = p := Option.some.inj hp
  decide

/-- The first entry of the jobs page, with the request of the scripts page. -/
def AgainReady (s : Site) : Prop :=
  s.entries.map (fun job => posted sampleBrowser job.request) =
      [posted sampleBrowser (some sampleJob)] ∧
    s.world.service.scheduler.db.m_jobId = 1 ∧
    directory s.world.service.disk [] s.world.service.scheduler.db.m_jobs_requests_dir =
      some [text "opt", text "jobs", text "requests"] ∧
    [text "opt", text "jobs", text "requests", text "1"] ∉ s.world.service.disk

instance (s : Site) : Decidable (AgainReady s) :=
  inferInstanceAs (Decidable (_ ∧ _ ∧ _ ∧ _))

theorem careful_of_againReady {s : Site} (h : AgainReady s) :
    Careful sampleBrowser [] s (.again sampleEnv 0) := by
  obtain ⟨hentries, hid, hdirectory, hfree⟩ := h
  intro job hjob
  have hposted : posted sampleBrowser job.request = posted sampleBrowser (some sampleJob) := by
    have hmem := List.mem_map_of_mem (f := fun job => posted sampleBrowser job.request)
      (List.mem_of_getElem? hjob)
    rw [hentries] at hmem
    exact List.mem_singleton.mp hmem
  rw [hposted]
  refine ⟨rfl, by rw [hid]; decide, ?_⟩
  intro p hp
  obtain rfl := Option.some.inj (hdirectory.symm.trans hp)
  rw [hid]
  exact hfree

theorem careful_again : Meets (step sampleBrowser [])
    (Careful sampleBrowser []) freshSite (listedRun ++ [.again sampleEnv 0]) := by
  apply meets_append careful_listedRun
  intro s hs
  have hready : ((run (step sampleBrowser []) freshSite listedRun).map fun s =>
      decide (AgainReady s)) = some true := by
    decide +kernel
  rw [hs, Option.map_some, Option.some.injEq] at hready
  exact ⟨careful_of_againReady (of_decide_eq_true hready), fun _ _ => trivial⟩

/-! ### Jobs that are run -/

end OpcUaTestTool.WebJobs
