import OpcUaTestTool.Api
import OpcUaTestTool.JsonLibrary

/-! The bodies of the answers: a handler parses what the service returned, puts it into an object
and writes the object; the page parses the text again. -/
namespace OpcUaTestTool.ServedBodies
open FiniteMap Numerals FileSystem JobScheduler JsonValues JsonDump JsonSound JsonLibrary
open ScriptPaths FinishedJobs Api

section
variable {parse : Bytes → Option Json} {dump : Json → Bytes} {cwd : Path} {s : Service} {env : Env}
    {content : Content}

theorem number_eq_ok {value : Bytes} {n : Int} (h : Api.number (some value) = .ok n) :
    stoi value = some n := by
  unfold Api.number at h
  cases hs : stoi value with
  | none => simp [hs] at h
  | some m =>
    simp only [hs, Except.ok.injEq] at h
    rw [h]

theorem parsed_eq_ok {data : Bytes} {j : Json} (h : parsed parse data = .ok j) :
    parse data = some j := by
  unfold parsed at h
  cases hp : parse data with
  | none => simp [hp] at h
  | some v =>
    simp only [hp, Except.ok.injEq] at h
    rw [h]

/- What is answered by the handlers that parse. -/

theorem handle_getJob {value : Bytes} {id : Int} {v : Json} (hid : stoi value = some id)
    (hv : parse (getFinishedJob cwd s.scheduler.db s.disk id) = some v) (d : Json → Bytes) :
    (handle parse d cwd s env (.getJob value)).1 =
      .ok (json d [(text "response", v), (text "statusCode", .boolean true)]) := by
  have hn : Api.number (some value) = .ok id := by simp only [Api.number, hid]
  have hp : parsed parse (getFinishedJob cwd s.scheduler.db s.disk id) = .ok v := by
    simp only [parsed, hv]
  simp only [handle, hn, answer, apiCallback, Except.bind, getGetJobResponse, bind, hp]
  rfl

theorem handle_getJob_ok {value : Bytes}
    (h : (handle parse dump cwd s env (.getJob value)).1 = .ok content) :
    ∃ id v, stoi value = some id ∧
      parse (getFinishedJob cwd s.scheduler.db s.disk id) = some v ∧
      ∀ d, (handle parse d cwd s env (.getJob value)).1 =
        .ok (json d [(text "response", v), (text "statusCode", .boolean true)]) := by
  cases hn : Api.number (some value) with
  | error e =>
    simp only [handle, hn] at h
    cases h
  | ok id =>
    simp only [handle, hn, answer, apiCallback, Except.bind, getGetJobResponse, bind] at h
    cases hp : parsed parse (getFinishedJob cwd s.scheduler.db s.disk id) with
    | error e =>
      simp only [hp] at h
      cases h
    | ok v =>
      have hid := number_eq_ok hn
      have hv := parsed_eq_ok hp
      exact ⟨id, v, hid, hv, handle_getJob hid hv⟩

theorem handle_getJobs_ok {fromValue maxValue : Option Bytes}
    (h : (handle parse dump cwd s env (.getJobs fromValue maxValue)).1 = .ok content) :
    ∃ fromId max finished v, Api.number fromValue = .ok fromId ∧
      Api.number maxValue = .ok max ∧
      dir cwd s.disk s.scheduler.db.m_jobs_finished_dir = some finished ∧
      parse (getFinishedJobs env.entries finished fromId max).stream = some v ∧
      ∀ d, (handle parse d cwd s env (.getJobs fromValue maxValue)).1 =
        .ok (json d [(text "ok", .boolean true), (text "response", v)]) := by
  cases hf : Api.number fromValue with
  | error e =>
    simp only [handle, hf] at h
    cases h
  | ok fromId =>
    cases hm : Api.number maxValue with
    | error e =>
      simp only [handle, hf, hm] at h
      cases h
    | ok max =>
      cases hd : dir cwd s.disk s.scheduler.db.m_jobs_finished_dir with
      | none =>
        simp only [handle, hf, hm, answer, apiCallback, hd] at h
        cases h
      | some finished =>
        simp only [handle, hf, hm, answer, apiCallback, hd, Except.bind, getGetJobResponse,
          bind] at h
        cases hp : parsed parse (getFinishedJobs env.entries finished fromId max).stream with
        | error e =>
          simp only [hp] at h
          cases h
        | ok v =>
          refine ⟨fromId, max, finished, v, rfl, rfl, rfl, parsed_eq_ok hp, fun d => ?_⟩
          simp only [handle, hf, hm, answer, apiCallback, hd, Except.bind, getGetJobResponse, bind,
            hp]
          rfl

theorem handle_getScripts {p : Path} {v : Json}
    (hd : directory s.disk cwd s.scheduler.db.m_scriptDir = some p)
    (hv : parse (getScripts env.entries) = some v) (d : Json → Bytes) :
    (handle parse d cwd s env .getScripts).1 =
      .ok (json d [(text "ok", .boolean true), (text "response", v)]) := by
  have hp : parsed parse (getScripts env.entries) = .ok v := by simp only [parsed, hv]
  simp only [handle, answer, apiCallback, hd, Except.bind, getGetScriptsResponse, bind, hp]
  rfl

theorem handle_getScripts_ok (h : (handle parse dump cwd s env .getScripts).1 = .ok content) :
    ∃ v, parse (getScripts env.entries) = some v ∧
      ∀ d, (handle parse d cwd s env .getScripts).1 =
        .ok (json d [(text "ok", .boolean true), (text "response", v)]) := by
  cases hd : directory s.disk cwd s.scheduler.db.m_scriptDir with
  | none =>
    simp only [handle, answer, apiCallback, hd] at h
    cases h
  | some p =>
    simp only [handle, answer, apiCallback, hd, Except.bind, getGetScriptsResponse, bind] at h
    cases hp : parsed parse (getScripts env.entries) with
    | error e =>
      simp only [hp] at h
      cases h
    | ok v =>
      have hv := parsed_eq_ok hp
      exact ⟨v, hv, handle_getScripts hd hv⟩

end

theorem ok_lt_response : text "ok" < text "response" := by decide

theorem response_lt_statusCode : text "response" < text "statusCode" := by decide

theorem id_lt_ok : text "id" < text "ok" := by decide

variable (L : Library) (cwd : Path) (s : Service) (env : Env)

/-- The members of the object that a handler answers. A response is the value of what the service
read from its store. -/
def Answered : HttpRequest → List (Bytes × Json) → Prop
  | .getJobs fromValue maxValue, members => ∃ fromId max finished v,
      Api.number fromValue = .ok fromId ∧ Api.number maxValue = .ok max ∧
      dir cwd s.disk s.scheduler.db.m_jobs_finished_dir = some finished ∧
      L.parse (getFinishedJobs env.entries finished fromId max).stream = some v ∧
      members = [(text "ok", .boolean true), (text "response", v)]
  | .getScripts, members => ∃ v, L.parse (getScripts env.entries) = some v ∧
      members = [(text "ok", .boolean true), (text "response", v)]
  | .getJob value, members => ∃ id v, stoi value = some id ∧
      L.parse (getFinishedJob cwd s.scheduler.db s.disk id) = some v ∧
      members = [(text "response", v), (text "statusCode", .boolean true)]
  | .postJobs _, members =>
      members = [(text "id", .integer s.scheduler.db.m_jobId), (text "ok", .boolean true)]
  | _, members => members = [(text "ok", .boolean true)]

variable {L cwd s env}

/-- The values in an answer are values of the library. -/
theorem Answered.value {req : HttpRequest} {members : List (Bytes × Json)}
    (hid : InInt s.scheduler.db.m_jobId) (h : Answered L cwd s env req members) :
    L.Value (.object members) := by
  cases req with
  | getJobs fromValue maxValue =>
    obtain ⟨_, _, _, v, _, _, _, hv, rfl⟩ := h
    exact sound_pair ok_lt_response rfl rfl (.boolean true) (L.parse_sound hv)
  | getScripts =>
    obtain ⟨v, hv, rfl⟩ := h
    exact sound_pair ok_lt_response rfl rfl (.boolean true) (L.parse_sound hv)
  | getJob value =>
    obtain ⟨_, v, _, hv, rfl⟩ := h
    exact sound_pair response_lt_statusCode rfl rfl (L.parse_sound hv) (.boolean true)
  | postJobs body =>
    cases h
    exact sound_pair id_lt_ok rfl rfl (L.value_int hid) (.boolean true)
  | _ =>
    cases h
    exact sound_single rfl (.boolean true)

/-- What a handler answers as JSON: an object of its own, or the list of the targets. -/
theorem answered_of_ok {req : HttpRequest} (hreq : req ≠ .getTargets) {content : Content}
    (h : (handle L.parse L.dump cwd s env req).1 = .ok content)
    (hjson : content.contentType = text "application/json") :
    ∃ members, Answered L cwd s env req members ∧ content = json L.dump members := by
  have hplain : text "text/plain" ≠ text "application/json" := by decide
  have hevents : text "text/event-stream" ≠ text "application/json" := by decide
  cases req with
  | getJobs fromValue maxValue =>
    obtain ⟨fromId, max, finished, v, hfrom, hmax, hd, hv, hjson⟩ := handle_getJobs_ok h
    rw [hjson, Except.ok.injEq] at h
    exact ⟨_, ⟨fromId, max, finished, v, hfrom, hmax, hd, hv, rfl⟩, h.symm⟩
  | getScripts =>
    obtain ⟨v, hv, hjson⟩ := handle_getScripts_ok h
    rw [hjson, Except.ok.injEq] at h
    exact ⟨_, ⟨v, hv, rfl⟩, h.symm⟩
  | putRepoClone =>
    cases h
    exact ⟨_, rfl, rfl⟩
  | getScript name =>
    cases h
    exact absurd hjson hplain
  | postScript name body => cases h
  | postJobs body =>
    cases hc : s.scheduler.create (treeOf cwd s.scheduler.db s.disk) body env.storing env.fork with
    | error e =>
      simp only [handle, answer, apiCallback, Service.newJob, hc] at h
      cases h
    | ok c =>
      simp only [handle, answer, apiCallback, Service.newJob, hc] at h
      cases h
      refine ⟨_, rfl, ?_⟩
      rw [← (create_spec hc).1]
      rfl
  | getJob value =>
    obtain ⟨id, v, hid, hv, hjson⟩ := handle_getJob_ok h
    rw [hjson, Except.ok.injEq] at h
    exact ⟨_, ⟨id, v, hid, hv, rfl⟩, h.symm⟩
  | getJobLog value =>
    cases hn : Api.number (some value) with
    | error e =>
      simp only [handle, hn] at h
      cases h
    | ok id =>
      simp only [handle, hn, answer, apiCallback, Except.bind, getGetJobLogResponse, bind,
        Except.ok.injEq] at h
      subst h
      exact absurd hjson hplain
  | getEvents =>
    cases h
    exact absurd hjson hevents
  | getTargets => exact absurd rfl hreq
  | postRepl body =>
    cases h
    exact ⟨_, rfl, rfl⟩

/-- Every JSON object that a handler answers is read as the object it was. Its response is the value
of the text that the service made of its files, whatever is in them. The list of the targets is no
object of the handler: it is passed on as it lies in its file. -/
theorem served_body_reads_back (L : Library) (cwd : Path) (s : Service)
    (hid : InInt s.scheduler.db.m_jobId) (env : Env) (req : HttpRequest) (hreq : req ≠ .getTargets)
    (content : Content) (hanswer : (handle L.parse L.dump cwd s env req).1 = .ok content)
    (hjson : content.contentType = text "application/json") :
    ∃ members, Answered L cwd s env req members ∧ content.body = L.dump (.object members) ∧
      L.parse content.body = some (.object members) := by
  obtain ⟨members, hanswered, rfl⟩ := answered_of_ok hreq hanswer hjson
  exact ⟨members, hanswered, rfl, L.parse_dump (hanswered.value hid)⟩

/- One script. -/
def listedEnv : Env := { sampleEnv with entries := [text "a.lua"] }

theorem served_body_sample : ∃ content,
    (handle sampleLibrary.parse sampleLibrary.dump [] sampleService listedEnv .getScripts).1 =
      .ok content ∧
    sampleLibrary.parse content.body = some (.object [(text "ok", .boolean true),
      (text "response", .array [.object [(text "name", .string (text "a.lua"))]])]) := by
  have hlisted : sampleLibrary.parse (getScripts listedEnv.entries) =
      some (.array [.object [(text "name", .string (text "a.lua"))]]) :=
    parse_sampleLibrary rfl rfl
  have hdir : directory sampleService.disk [] sampleService.scheduler.db.m_scriptDir =
      some [text "opt", text "repo", text "scripts"] := by
    decide
  have hanswer := handle_getScripts hdir hlisted sampleLibrary.dump
  obtain ⟨members, hanswered, _, hread⟩ := served_body_reads_back sampleLibrary [] sampleService
    (by decide) listedEnv .getScripts (by simp) _ hanswer rfl
  obtain ⟨v, hv, rfl⟩ := hanswered
  obtain rfl := Option.some.inj (hlisted.symm.trans hv)
  exact ⟨_, hanswer, hread⟩

end OpcUaTestTool.ServedBodies
