import OpcUaTestTool.ServiceRuns

/-! The routes of the server: which handler gets a request, and with which part of its path. -/
namespace OpcUaTestTool.Routes
open Numerals Directory FileSystem Store JobScheduler JsonValues ScriptPaths Api Transition
open ServiceRuns (scheduler_handle)

inductive Method where
  | get
  | put
  | post
  | head
  deriving DecidableEq

/-- Whose handlers are asked. -/
def Method.handlers : Method → Method
  | .head => .get
  | m => m

/-- The groups `(.*)` and `(\d+)`; a dot is no end of a line. -/
inductive Group where
  | any
  | digits
  deriving DecidableEq

def Group.matches : Group → Bytes → Bool
  | .any, s => s.all fun b => b ≠ 10 && b ≠ 13
  | .digits, s => s ≠ [] && s.all isDigit

inductive Pattern where
  | literal (s : Bytes)
  | group (before : Bytes) (g : Group) (behind : Bytes)
  deriving DecidableEq

/-- `std::regex_match` with the whole path: what its group matches. -/
def Pattern.regexMatch : Pattern → Bytes → Option Bytes
  | .literal s, path => if path = s then some [] else none
  | .group before g behind, path => do
    let rest ← path.dropPrefix? before
    let s ← rest.dropSuffix? behind
    if g.matches s then some s else none

/- A request as the library hands it over, with the path decoded. -/
structure Request where
  method : Method
  path : Bytes
  params : List (Bytes × Bytes) := []
  body : Bytes := []

structure Route where
  method : Method
  pattern : Pattern
  handler : Request → Bytes → HttpRequest

/-- The handlers, in the order in which they are registered. -/
def routes : List Route :=
  [ ⟨.get, .literal (text "/api/jobs"), fun req _ =>
      .getJobs (req.params.lookup (text "from")) (req.params.lookup (text "max"))⟩,
    ⟨.get, .literal (text "/api/scripts"), fun _ _ => .getScripts⟩,
    ⟨.put, .literal (text "/api/repo/clone"), fun _ _ => .putRepoClone⟩,
    ⟨.get, .group (text "/api/scripts/") .any [], fun _ name => .getScript name⟩,
    ⟨.post, .group (text "/api/scripts/") .any [], fun req name => .postScript name req.body⟩,
    ⟨.post, .literal (text "/api/jobs"), fun req _ => .postJobs req.body⟩,
    ⟨.get, .group (text "/api/jobs/") .digits [], fun _ id => .getJob id⟩,
    ⟨.get, .group (text "/api/jobs/") .digits (text "/log"), fun _ id => .getJobLog id⟩,
    ⟨.get, .literal (text "/api/events"), fun _ _ => .getEvents⟩,
    ⟨.get, .literal (text "/api/targets"), fun _ _ => .getTargets⟩,
    ⟨.post, .literal (text "/api/repl"), fun req _ => .postRepl req.body⟩ ]

def Route.accept (req : Request) (r : Route) : Option HttpRequest :=
  if r.method = req.method.handlers then (r.pattern.regexMatch req.path).map (r.handler req)
  else none

/-- The library takes the first handler whose pattern matches; `none` is answered with 404. The
files of the web application, which come first, have no such paths. -/
def dispatch (rs : List Route) (req : Request) : Option HttpRequest :=
  rs.findSome? (Route.accept req)

/-! ### First matches -/

section
variable {α β : Type} {f : α → Option β}

/-- Of alternatives that exclude each other, the order does not matter. -/
theorem findSome?_perm {l l' : List α} (hp : l.Perm l')
    (hl : l.Pairwise fun a b => f a = none ∨ f b = none) : l.findSome? f = l'.findSome? f := by
  induction hp with
  | nil => rfl
  | cons a _ ih => rw [List.findSome?_cons, List.findSome?_cons, ih hl.of_cons]
  | swap a b l =>
    have hab := List.rel_of_pairwise_cons hl List.mem_cons_self
    simp only [List.findSome?_cons]
    cases hab with
    | inl hb => rw [hb]
    | inr ha => rw [ha]
  | trans hp _ ih ih' =>
    have hsymm : ∀ {a b : α}, (f a = none ∨ f b = none) → (f b = none ∨ f a = none) := Or.symm
    exact (ih hl).trans (ih' (hp.pairwise hl hsymm))

/-- One of them is found exactly if there is one that accepts. -/
theorem findSome?_eq_some_iff {l : List α} (hl : l.Pairwise fun a b => f a = none ∨ f b = none)
    {y : β} : l.findSome? f = some y ↔ ∃ a ∈ l, f a = some y := by
  refine ⟨List.exists_of_findSome?_eq_some, ?_⟩
  induction l with
  | nil => simp
  | cons a l ih =>
    rintro ⟨a', hmem, hy⟩
    rw [List.findSome?_cons]
    cases List.mem_cons.mp hmem with
    | inl heq => rw [← heq, hy]
    | inr htail =>
      have ha : f a = none := by
        cases List.rel_of_pairwise_cons hl htail with
        | inl ha => exact ha
        | inr hnone =>
          rw [hnone] at hy
          cases hy
      rw [ha]
      exact ih hl.of_cons ⟨a', htail, hy⟩

end

/-! ### Patterns -/

theorem regexMatch_group {before behind path s : Bytes} {g : Group} :
    (Pattern.group before g behind).regexMatch path = some s ↔
      path = before ++ s ++ behind ∧ g.matches s = true := by
  simp only [Pattern.regexMatch, bind, Option.bind_eq_some_iff, List.dropPrefix?_eq_some_iff,
    List.dropSuffix?_eq_some_iff, beq_iff_eq, Option.ite_none_right_eq_some, Option.some.injEq]
  constructor
  · rintro ⟨rest, ⟨_, hpath, rfl⟩, _, ⟨_, hrest, rfl⟩, hg, rfl⟩
    rw [hpath, hrest, List.append_assoc]
    exact ⟨rfl, hg⟩
  · rintro ⟨rfl, hg⟩
    exact ⟨s ++ behind, ⟨before, List.append_assoc _ _ _, rfl⟩, s, ⟨behind, rfl, rfl⟩, hg, rfl⟩

/-- What ends in `behind` is not matched where digits stand at the end. -/
def EndsApart (g : Group) (behind behind' : Bytes) : Prop :=
  g = .digits ∧ behind = [] ∧ ∃ b ∈ behind'.getLast?, isDigit b = false

instance (g : Group) (behind behind' : Bytes) : Decidable (EndsApart g behind behind') :=
  inferInstanceAs (Decidable (_ ∧ _ ∧ _))

/-- No path is matched by both. -/
def Apart : Pattern → Pattern → Prop
  | .literal s, q => q.regexMatch s = none
  | p, .literal t => p.regexMatch t = none
  | .group before g behind, .group before' g' behind' =>
    (¬before <+: before' ∧ ¬before' <+: before) ∨ EndsApart g behind behind' ∨
      EndsApart g' behind' behind

instance : (p q : Pattern) → Decidable (Apart p q)
  | .literal _, _ => inferInstanceAs (Decidable (_ = _))
  | .group _ _ _, .literal _ => inferInstanceAs (Decidable (_ = _))
  | .group _ _ _, .group _ _ _ => inferInstanceAs (Decidable (_ ∨ _))

theorem endsApart_spec {g : Group} {behind behind' : Bytes} (h : EndsApart g behind behind')
    {before before' s s' : Bytes} (hg : g.matches s = true) :
    before ++ s ++ behind ≠ before' ++ s' ++ behind' := by
  obtain ⟨rfl, rfl, b, hb, hdigit⟩ := h
  obtain ⟨init, rfl⟩ := List.getLast?_eq_some_iff.mp hb
  intro heq
  simp only [Group.matches, Bool.and_eq_true, decide_eq_true_eq, List.all_eq_true] at hg
  obtain ⟨hne, hall⟩ := hg
  obtain ⟨front, c, rfl⟩ := (List.eq_nil_or_concat' s).resolve_left hne
  rw [List.append_nil, ← List.append_assoc, ← List.append_assoc] at heq
  have hc : c = b := (List.append_inj' heq rfl).2 |> List.singleton_inj.mp
  have := hall c (by simp)
  rw [hc, hdigit] at this
  cases this

theorem regexMatch_of_apart {p q : Pattern} (h : Apart p q) (path : Bytes) :
    p.regexMatch path = none ∨ q.regexMatch path = none := by
  cases p with
  | literal s =>
    by_cases hs : path = s
    · rw [hs]
      exact Or.inr h
    · exact Or.inl (if_neg hs)
  | group before g behind =>
    cases q with
    | literal t =>
      by_cases ht : path = t
      · rw [ht]
        exact Or.inl h
      · exact Or.inr (if_neg ht)
    | group before' g' behind' =>
      by_contra hboth
      rw [not_or, ← ne_eq, ← ne_eq, Option.ne_none_iff_exists', Option.ne_none_iff_exists'] at hboth
      obtain ⟨⟨s, hs⟩, s', hs'⟩ := hboth
      obtain ⟨hpath, hg⟩ := regexMatch_group.mp hs
      obtain ⟨hpath', hg'⟩ := regexMatch_group.mp hs'
      rcases h with hbefore | hend | hend
      · have hp : before <+: path := ⟨s ++ behind, by rw [hpath, List.append_assoc]⟩
        have hp' : before' <+: path := ⟨s' ++ behind', by rw [hpath', List.append_assoc]⟩
        cases List.prefix_or_prefix_of_prefix hp hp' with
        | inl hpre => exact hbefore.1 hpre
        | inr hpre => exact hbefore.2 hpre
      · exact endsApart_spec hend hg (hpath.symm.trans hpath')
      · exact endsApart_spec hend hg' (hpath'.symm.trans hpath)

theorem routes_apart :
    routes.Pairwise fun a b => a.method = b.method → Apart a.pattern b.pattern := by
  have hall : (routes.map fun r => (r.method, r.pattern)).Pairwise fun a b =>
      a.1 = b.1 → Apart a.2 b.2 := by
    decide +kernel
  exact List.pairwise_map.mp hall

theorem routes_exclusive (req : Request) :
    routes.Pairwise fun a b => a.accept req = none ∨ b.accept req = none := by
  refine routes_apart.imp fun {a b} hapart => ?_
  unfold Route.accept
  by_cases ha : a.method = req.method.handlers
  · by_cases hb : b.method = req.method.handlers
    · rw [if_pos ha, if_pos hb, Option.map_eq_none_iff, Option.map_eq_none_iff]
      exact regexMatch_of_apart (hapart (ha.trans hb.symm)) req.path
    · exact Or.inr (if_neg hb)
  · exact Or.inl (if_neg ha)

/-- Which handler gets a request, and with what, does not depend on the order in which the handlers
are registered: each request has at most one. -/
theorem dispatch_perm {rs : List Route} (h : rs.Perm routes) (req : Request) :
    dispatch rs req = dispatch routes req :=
  (findSome?_perm h.symm (routes_exclusive req)).symm

theorem dispatch_perm_sample :
    dispatch routes.reverse { method := .get, path := text "/api/jobs/007/log" } =
      some (.getJobLog (text "007")) := by
  rw [dispatch_perm routes.reverse_perm]
  rfl

/-! ### Numbers in paths -/

theorem digitsValue_zero_cons (s : Bytes) : digitsValue (48 :: s) = digitsValue s := by
  simp [digitsValue, Nat.ofDigits_append]

theorem digitsValue_replicate_append (k : Nat) (s : Bytes) :
    digitsValue (List.replicate k 48 ++ s) = digitsValue s := by
  induction k with
  | zero => rfl
  | succ k ih => rw [List.replicate_succ, List.cons_append, digitsValue_zero_cons, ih]

theorem digit_toNat {b : UInt8} (h : isDigit b = true) : digit (b.toNat - 48) = b := by
  simp only [isDigit, Bool.and_eq_true, decide_eq_true_eq] at h
  rw [digit, Nat.add_sub_cancel' h.1, UInt8.ofNat_toNat]

/-- Digits without a leading zero are the numeral of their value. -/
theorem decimalNat_digitsValue {b : UInt8} {s : Bytes} (hall : ∀ c ∈ b :: s, isDigit c = true)
    (hb : b ≠ 48) : decimalNat (digitsValue (b :: s)) = b :: s := by
  have hlow : ∀ d ∈ (b :: s).reverse.map fun c => c.toNat - 48, d < 10 := by
    intro d hd
    obtain ⟨c, hc, rfl⟩ := List.mem_map.mp hd
    have := hall c (List.mem_reverse.mp hc)
    simp only [isDigit, Bool.and_eq_true, decide_eq_true_eq] at this
    omega
  have hfirst : b.toNat - 48 ≠ 0 := by
    intro hzero
    have := digit_toNat (hall b List.mem_cons_self)
    rw [hzero] at this
    exact hb this.symm
  have hdigits := Nat.digits_ofDigits 10 (by decide) _ hlow (fun hne => by simpa using hfirst)
  have hne : digitsValue (b :: s) ≠ 0 := by
    intro hzero
    rw [digitsValue] at hzero
    rw [hzero, Nat.digits_zero] at hdigits
    simp at hdigits
  rw [decimalNat, if_neg hne, digitsValue, hdigits, List.map_map, List.map_reverse,
    List.reverse_reverse]
  calc (b :: s).map (digit ∘ fun c => c.toNat - 48)
      = (b :: s).map id := List.map_congr_left fun c hc => digit_toNat (hall c hc)
    _ = b :: s := List.map_id _

/-- Other digits are zeros before such a numeral. -/
theorem digits_eq {s : Bytes} (hne : s ≠ []) (hall : ∀ c ∈ s, isDigit c = true) :
    ∃ k, s = List.replicate k 48 ++ decimalNat (digitsValue s) := by
  induction s with
  | nil => exact absurd rfl hne
  | cons b s ih =>
    by_cases hb : b = 48
    · subst hb
      rw [digitsValue_zero_cons]
      by_cases hs : s = []
      · subst hs
        exact ⟨0, rfl⟩
      · obtain ⟨k, hk⟩ := ih hs fun c hc => hall c (List.mem_cons_of_mem _ hc)
        exact ⟨k + 1, by rw [List.replicate_succ, List.cons_append, ← hk]⟩
    · exact ⟨0, (decimalNat_digitsValue hall hb).symm⟩

theorem stoi_digits {s : Bytes} (hne : s ≠ []) (hall : ∀ c ∈ s, isDigit c = true) :
    stoi s = if InInt (digitsValue s) then some (digitsValue s : Int) else none := by
  have htake : s.takeWhile isDigit = s := List.takeWhile_eq_self_iff.mpr hall
  cases s with
  | nil => exact absurd rfl hne
  | cons b s =>
    have hb := hall b List.mem_cons_self
    have hspace : isSpace b = false := by
      simp only [isDigit, Bool.and_eq_true, decide_eq_true_eq] at hb
      simp only [isSpace, Bool.or_eq_false_iff, Bool.and_eq_false_iff, decide_eq_false_iff_not]
      refine ⟨?_, by omega⟩
      rintro rfl
      simp at hb
    have hsign : splitSign (b :: s) = (false, b :: s) := by
      have h45 : b ≠ 45 := by
        rintro rfl
        simp [isDigit] at hb
      have h43 : b ≠ 43 := by
        rintro rfl
        simp [isDigit] at hb
      rw [splitSign, if_neg h45, if_neg h43]
    rw [stoi, List.dropWhile_cons_of_neg (by simp [hspace]), hsign]
    simp only [htake, Bool.false_eq_true, if_false, if_neg hne]

/-- The digits with a value are its numeral behind zeros. -/
theorem digits_number_iff {s : Bytes} {id : Int} :
    Group.digits.matches s = true ∧ number (some s) = .ok id ↔
      InInt id ∧ 0 ≤ id ∧ ∃ k, s = List.replicate k 48 ++ decimal id := by
  have hnumber : number (some s) = .ok id ↔ stoi s = some id := by
    rw [number]
    cases stoi s with
    | none => simp
    | some n => simp
  rw [hnumber]
  simp only [Group.matches, Bool.and_eq_true, decide_eq_true_eq, List.all_eq_true]
  constructor
  · rintro ⟨⟨hne, hall⟩, hstoi⟩
    rw [stoi_digits hne hall] at hstoi
    obtain ⟨hint, hvalue⟩ := Option.ite_none_right_eq_some.mp hstoi
    obtain rfl := Option.some.inj hvalue
    exact ⟨hint, Int.natCast_nonneg _, digits_eq hne hall⟩
  · rintro ⟨hint, hpos, k, rfl⟩
    obtain ⟨n, rfl⟩ := Int.eq_ofNat_of_zero_le hpos
    have hne : List.replicate k 48 ++ decimal n ≠ [] := fun h =>
      decimalNat_ne_nil n (List.append_eq_nil_iff.mp h).2
    have hall : ∀ c ∈ List.replicate k 48 ++ decimal n, isDigit c = true := by
      intro c hc
      cases List.mem_append.mp hc with
      | inl hzero =>
        rw [List.eq_of_mem_replicate hzero]
        decide
      | inr hdigit => exact isDigit_of_mem_decimalNat hdigit
    refine ⟨⟨hne, hall⟩, ?_⟩
    have hvalue : digitsValue (List.replicate k 48 ++ decimal n) = n :=
      (digitsValue_replicate_append k _).trans (digitsValue_decimalNat n)
    rw [stoi_digits hne hall, hvalue, if_pos hint]

/-! ### Requests of jobs -/

theorem dispatch_eq_some_iff {req : Request} {h : HttpRequest} :
    dispatch routes req = some h ↔ ∃ r ∈ routes, r.method = req.method.handlers ∧
      ∃ s, r.pattern.regexMatch req.path = some s ∧ r.handler req s = h := by
  rw [dispatch, findSome?_eq_some_iff (routes_exclusive req)]
  refine exists_congr fun r => and_congr_right fun _ => ?_
  rw [Route.accept, Option.ite_none_right_eq_some, Option.map_eq_some_iff]

theorem dispatch_getJob {req : Request} {s : Bytes} : dispatch routes req = some (.getJob s) ↔
    req.method.handlers = .get ∧ req.path = text "/api/jobs/" ++ s ∧
      Group.digits.matches s = true := by
  rw [dispatch_eq_some_iff]
  simp only [routes, List.mem_cons, List.not_mem_nil, or_false, exists_eq_or_imp, exists_eq_left,
    reduceCtorEq, and_false, exists_false, false_or, HttpRequest.getJob.injEq, exists_eq_right,
    regexMatch_group, List.append_nil, eq_comm (b := req.method.handlers)]

theorem dispatch_getJobLog {req : Request} {s : Bytes} :
    dispatch routes req = some (.getJobLog s) ↔ req.method.handlers = .get ∧
      req.path = text "/api/jobs/" ++ s ++ text "/log" ∧ Group.digits.matches s = true := by
  rw [dispatch_eq_some_iff]
  simp only [routes, List.mem_cons, List.not_mem_nil, or_false, exists_eq_or_imp, exists_eq_left,
    reduceCtorEq, and_false, exists_false, false_or, HttpRequest.getJobLog.injEq, exists_eq_right,
    regexMatch_group, eq_comm (b := req.method.handlers)]

theorem handlers_eq_get {m : Method} : m.handlers = .get ↔ m = .get ∨ m = .head := by
  cases m <;> simp [Method.handlers]

/-- The requests for the result of a job, and for its log, are the ones with its numeral in their
path, behind any number of zeros. No path asks for a job with a negative number. -/
theorem job_asked_iff (req : Request) (id : Int) :
    ((∃ s, dispatch routes req = some (.getJob s) ∧ number (some s) = .ok id) ↔
      (req.method = .get ∨ req.method = .head) ∧ InInt id ∧ 0 ≤ id ∧
        ∃ k, req.path = text "/api/jobs/" ++ (List.replicate k 48 ++ decimal id)) ∧
    ((∃ s, dispatch routes req = some (.getJobLog s) ∧ number (some s) = .ok id) ↔
      (req.method = .get ∨ req.method = .head) ∧ InInt id ∧ 0 ≤ id ∧
        ∃ k, req.path = text "/api/jobs/" ++
          (List.replicate k 48 ++ decimal id) ++ text "/log") := by
  have hasked (path : Bytes → Bytes) :
      (∃ s, (req.method.handlers = .get ∧ req.path = path s ∧ Group.digits.matches s = true) ∧
        number (some s) = .ok id) ↔ req.method.handlers = .get ∧ InInt id ∧ 0 ≤ id ∧
          ∃ k, req.path = path (List.replicate k 48 ++ decimal id) := by
    constructor
    · rintro ⟨s, ⟨hget, hpath, hdigits⟩, hnumber⟩
      obtain ⟨hint, hpos, k, rfl⟩ := digits_number_iff.mp ⟨hdigits, hnumber⟩
      exact ⟨hget, hint, hpos, k, hpath⟩
    · rintro ⟨hget, hint, hpos, k, hpath⟩
      obtain ⟨hdigits, hnumber⟩ := digits_number_iff.mpr ⟨hint, hpos, k, rfl⟩
      exact ⟨_, ⟨hget, hpath, hdigits⟩, hnumber⟩
  simp only [dispatch_getJob, dispatch_getJobLog, ← handlers_eq_get]
  exact ⟨hasked fun s => text "/api/jobs/" ++ s,
    hasked fun s => text "/api/jobs/" ++ s ++ text "/log"⟩

/-! ### Scripts -/

section
variable (parse : Bytes → Option Json) (dump : Json → Bytes) (cwd : Path)

/-- What the service answers, if there is a handler, and the service after it. -/
def serve (s : Service) (env : Env) (req : Request) : Option (Except Failure Content) × Service :=
  match dispatch routes req with
  | none => (none, s)
  | some h => ((handle parse dump cwd s env h).1, (handle parse dump cwd s env h).2)

inductive Action where
  | request (req : Request) (env : Env)
  /-- Test runners and others leave other files. -/
  | others (disk : Disk)

def step (s : Service) : Action → Option Service
  | .request req env =>
    match serve parse dump cwd s env req with
    | (some (.error (.left _)), _) => none
    | (_, s') => some s'
  | .others disk => some { s with disk := disk }

/-- A request that writes to no file in this place, and makes no clone. -/
def Spares (q : Place) (s : Service) : HttpRequest → Prop
  | .putRepoClone => False
  | .postScript name _ => place s.disk cwd (scriptPath s.scheduler.db.m_scriptDir name) ≠ some q
  | .postJobs _ => place s.disk cwd (requestPath s.scheduler.db) ≠ some q
  | _ => True

/-- The directories stay, and the file in this place is left alone. -/
def Careful (q : Place) (s : Service) : Action → Prop
  | .request req _ => ∀ h, dispatch routes req = some h → Spares cwd q s h
  | .others disk => (∀ p, p ∈ disk ↔ p ∈ s.disk) ∧ file disk q = file s.disk q

/- A script is stored in this place. -/
structure Stored (q : Place) (name content : Bytes) (s : Service) : Prop where
  place : place s.disk cwd (scriptPath s.scheduler.db.m_scriptDir name) = some q
  file : file s.disk q = some content

end

variable {parse : Bytes → Option Json} {dump : Json → Bytes} {cwd : Path} {q : Place}
  {name content : Bytes}

theorem dispatch_getScript {req : Request} : dispatch routes req = some (.getScript name) ↔
    req.method.handlers = .get ∧ req.path = text "/api/scripts/" ++ name ∧
      Group.any.matches name = true := by
  rw [dispatch_eq_some_iff]
  simp only [routes, List.mem_cons, List.not_mem_nil, or_false, exists_eq_or_imp, exists_eq_left,
    reduceCtorEq, and_false, exists_false, false_or, HttpRequest.getScript.injEq, exists_eq_right,
    regexMatch_group, List.append_nil, eq_comm (b := req.method.handlers)]

theorem dispatch_postScript {req : Request} :
    dispatch routes req = some (.postScript name content) ↔ req.method.handlers = .post ∧
      req.path = text "/api/scripts/" ++ name ∧ Group.any.matches name = true ∧
      req.body = content := by
  rw [dispatch_eq_some_iff]
  simp only [routes, List.mem_cons, List.not_mem_nil, or_false, exists_eq_or_imp, exists_eq_left,
    reduceCtorEq, and_false, exists_false, false_or, HttpRequest.postScript.injEq,
    regexMatch_group, List.append_nil, eq_comm (b := req.method.handlers)]
  constructor
  · rintro ⟨hpost, s, ⟨hpath, hname⟩, rfl, hbody⟩
    exact ⟨hpost, hpath, hname, hbody⟩
  · rintro ⟨hpost, hpath, hname, hbody⟩
    exact ⟨hpost, name, ⟨hpath, hname⟩, rfl, hbody⟩

theorem place_congr {fs fs' : Disk} (h : ∀ p, p ∈ fs' ↔ p ∈ fs) (path : Bytes) :
    place fs' cwd path = place fs cwd path := by
  simp only [place, placeFrom, placeAt, walk_congr h, h]

/-- A file that is there opens. -/
theorem openRead_of_place {fs : Disk} {path : Bytes} (hp : place fs cwd path = some q)
    (hf : file fs q = some content) : openRead fs cwd path = .regular q content := by
  have hnone : directory fs cwd path = none := by
    obtain ⟨init, last, hnames⟩ :=
      (List.eq_nil_or_concat' (names (cString path))).resolve_left (names_ne_nil _)
    rw [place, placeFrom, hnames, placeAt, List.dropLast_concat, List.getLastD_concat] at hp
    rw [directory, hnames, walk_append]
    cases hwalk : walk fs (base cwd (cString path)) init with
    | none => rfl
    | some dir =>
      have hlast : enter dir last ∉ fs := by
        intro hmem
        simp [hwalk, hmem] at hp
      simp [walk, hlast]
  simp only [openRead, hnone, hp, hf]

theorem scriptDir_handle (parse : Bytes → Option Json) (dump : Json → Bytes) (cwd : Path)
    (s : Service) (env : Env) (h : HttpRequest) :
    (handle parse dump cwd s env h).2.scheduler.db.m_scriptDir = s.scheduler.db.m_scriptDir := by
  by_cases hjobs : ∃ body, h = .postJobs body
  · obtain ⟨body, rfl⟩ := hjobs
    cases hc : s.scheduler.create (treeOf cwd s.scheduler.db s.disk) body env.storing env.fork with
    | error e => simp [handle, answer, apiCallback, Service.newJob, hc]
    | ok c =>
      have hdb := (schedule_frame (create_spec hc).2.2).1
      simp only [handle, answer, apiCallback, Service.newJob, hc, hdb]
      rfl
  · rw [scheduler_handle fun body heq => hjobs ⟨body, heq⟩]

/-- Writing elsewhere keeps the script. -/
theorem Stored.write {s : Service} (h : Stored cwd q name content s) {path : Bytes}
    (hp : FileSystem.place s.disk cwd path ≠ some q) (body : Bytes) (w : Storing) :
    Stored cwd q name content { s with disk := FileSystem.write s.disk cwd path body w } := by
  refine ⟨(place_congr (fun _ => mem_write) _).trans h.place, ?_⟩
  cases hplace : FileSystem.place s.disk cwd path with
  | none =>
    rw [write_of_place_eq_none hplace]
    exact h.file
  | some r =>
    have hne : q ≠ r := fun heq => hp (by rw [hplace, heq])
    exact (file_write_ne hplace hne body w).trans h.file

theorem Stored.of_disk_eq {s s' : Service} (h : Stored cwd q name content s)
    (hdir : s'.scheduler.db.m_scriptDir = s.scheduler.db.m_scriptDir) (hdisk : s'.disk = s.disk) :
    Stored cwd q name content s' :=
  ⟨by rw [hdir, hdisk, h.place], by rw [hdisk, h.file]⟩

theorem Stored.handle {s : Service} (h : Stored cwd q name content s) {req : HttpRequest}
    (hspares : Spares cwd q s req) (env : Env) :
    Stored cwd q name content (Api.handle parse dump cwd s env req).2 := by
  have hdir := scriptDir_handle parse dump cwd s env req
  cases req with
  | putRepoClone => exact hspares.elim
  | postScript name' body => exact h.write hspares body env.storing
  | postJobs body =>
    have hdisk := (handle_postJobs parse dump cwd s env body).1
    exact (h.write hspares body env.storing).of_disk_eq hdir hdisk
  | _ => exact h.of_disk_eq hdir (disk_reading (by simp) (by simp) (by simp))

theorem step_request {s s' : Service} {req : Request} {env : Env}
    (hs : step parse dump cwd s (.request req env) = some s') :
    s' = (serve parse dump cwd s env req).2 := by
  rw [step] at hs
  split at hs
  · cases hs
  · rename_i heq
    rw [heq, ← Option.some.inj hs]

theorem Stored.step {s s' : Service} {a : Action} (h : Stored cwd q name content s)
    (hcareful : Careful cwd q s a) (hs : step parse dump cwd s a = some s') :
    Stored cwd q name content s' := by
  cases a with
  | others disk =>
    obtain rfl := Option.some.inj hs
    exact ⟨(place_congr hcareful.1 _).trans h.place, hcareful.2.trans h.file⟩
  | request req env =>
    have hserved : Stored cwd q name content (serve parse dump cwd s env req).2 := by
      unfold serve
      cases hdispatch : dispatch routes req with
      | none => exact h
      | some asked => exact h.handle (hcareful asked hdispatch) env
    exact step_request hs ▸ hserved

/-- A script that was posted under a path is what a later request reads under this path, whatever is
asked and written meanwhile, except where a request writes the same file or a clone replaces the
files. The request that posted it is answered with an error all the same. -/
theorem script_reads_back {s s' : Service} {env : Env} {post get : Request}
    (hpost : dispatch routes post = some (.postScript name content))
    (hplace : place s.disk cwd (scriptPath s.scheduler.db.m_scriptDir name) = some q)
    (hstored : env.storing = .stored) {as : List Action}
    (hcareful : Meets (step parse dump cwd) (Careful cwd q) (serve parse dump cwd s env post).2 as)
    (hrun : run (step parse dump cwd) (serve parse dump cwd s env post).2 as = some s')
    (hget : get.method = .get) (hpath : get.path = post.path) (env' : Env) :
    (serve parse dump cwd s env post).1 = some (.error (.thrown .bad_variant_access)) ∧
      serve parse dump cwd s' env' get = (some (.ok (plain content)), s') := by
  have hposted : Stored cwd q name content (serve parse dump cwd s env post).2 := by
    have hserved : (serve parse dump cwd s env post).2 =
        { s with
          disk := write s.disk cwd (scriptPath s.scheduler.db.m_scriptDir name) content
            .stored } := by
      rw [serve, hpost, ← hstored]
      rfl
    rw [hserved]
    exact ⟨(place_congr (fun _ => mem_write) _).trans hplace, file_write_stored hplace content⟩
  have hend : Stored cwd q name content s' :=
    run_invariant_of_meets (fun _ _ _ h hc hs => Stored.step h hc hs) hposted hcareful hrun
  have hread : dispatch routes get = some (.getScript name) := by
    obtain ⟨_, hname, hany, _⟩ := dispatch_postScript.mp hpost
    exact dispatch_getScript.mpr ⟨by rw [hget]; rfl, hpath.trans hname, hany⟩
  have hopened : getScript s'.scheduler.db s'.disk cwd name = content := by
    rw [getScript, openRead_of_place hend.place hend.file]
  refine ⟨by rw [serve, hpost]; rfl, ?_⟩
  simp only [serve, hread, handle, answer, apiCallback, hopened]
  rfl

def samplePost (path body : Bytes) : Request := { method := .post, path := path, body := body }

def sampleGet (path : Bytes) : Request := { method := .get, path := path }

def updated : List Action :=
  [.request (samplePost (text "/api/scripts/b.lua") (text "z")) sampleEnv,
    .request (sampleGet (text "/api/jobs/007")) sampleEnv]

theorem script_reads_back_sample :
    (serve JsonText.parse TestRunner.sampleDump [] sampleService sampleEnv
      (samplePost (text "/api/scripts/a.lua") (text "y"))).1 =
      some (.error (.thrown .bad_variant_access)) ∧
    ∃ s, run (step JsonText.parse TestRunner.sampleDump [])
        (serve JsonText.parse TestRunner.sampleDump [] sampleService sampleEnv
          (samplePost (text "/api/scripts/a.lua") (text "y"))).2 updated = some s ∧
      (serve JsonText.parse TestRunner.sampleDump [] s sampleEnv
        (sampleGet (text "/api/scripts/a.lua"))).1 = some (.ok (plain (text "y"))) := by
  have hpost : dispatch routes (samplePost (text "/api/scripts/a.lua") (text "y")) =
      some (.postScript (text "a.lua") (text "y")) :=
    dispatch_postScript.mpr ⟨rfl, rfl, by decide, rfl⟩
  have hother : dispatch routes (samplePost (text "/api/scripts/b.lua") (text "z")) =
      some (.postScript (text "b.lua") (text "z")) :=
    dispatch_postScript.mpr ⟨rfl, rfl, by decide, rfl⟩
  have hjob : dispatch routes (sampleGet (text "/api/jobs/007")) = some (.getJob (text "007")) :=
    dispatch_getJob.mpr ⟨rfl, rfl, by decide⟩
  have hcareful : Meets (step JsonText.parse TestRunner.sampleDump [])
      (Careful [] ⟨[text "opt", text "repo", text "scripts"], text "a.lua"⟩)
      (serve JsonText.parse TestRunner.sampleDump [] sampleService sampleEnv
        (samplePost (text "/api/scripts/a.lua") (text "y"))).2 updated := by
    refine ⟨fun h hd => ?_, fun t _ => ⟨fun h hd => ?_, fun _ _ => trivial⟩⟩
    · obtain rfl := Option.some.inj (hother.symm.trans hd)
      rw [serve, hpost, Spares]
      decide +kernel
    · obtain rfl := Option.some.inj (hjob.symm.trans hd)
      trivial
  have hrun : (run (step JsonText.parse TestRunner.sampleDump [])
      (serve JsonText.parse TestRunner.sampleDump [] sampleService sampleEnv
        (samplePost (text "/api/scripts/a.lua") (text "y"))).2 updated).isSome = true := by
    decide +kernel
  obtain ⟨s, hs⟩ := Option.isSome_iff_exists.mp hrun
  have hget : (sampleGet (text "/api/scripts/a.lua")).method = .get := rfl
  have hread := script_reads_back hpost (by decide) rfl hcareful hs hget rfl sampleEnv
  exact ⟨hread.1, s, hs, congrArg Prod.fst hread.2⟩

end OpcUaTestTool.Routes
