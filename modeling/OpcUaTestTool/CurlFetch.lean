import OpcUaTestTool.FileSystem
import OpcUaTestTool.MemoryBlock

/-! Fetching an answer of the service in the InfluxDB importer: `curl_callback` collects the chunks
of data that libcurl delivers in a buffer, which `realloc` may fail to expand. -/
namespace OpcUaTestTool.CurlFetch
open Numerals FileSystem MemoryBlock

/- `none` is the null pointer. A `size_t` is a `Nat`, as no block exceeds the address space. -/
structure CurlFetchSt where
  payload : Option Bytes
  size : Nat

inductive CURLcode where
  | ok
  | failedInit
  | writeError
  | other (code : Nat)
  deriving DecidableEq

/-- `curl_callback`. If `realloc` fails (`none`) the old block is lost; otherwise the cells it adds
to the block may hold anything. -/
def curlCallback (contents : Bytes) (size nmemb : Nat) (hsize : contents.length = size * nmemb)
    (expand : Option (Nat → UInt8)) (p : CurlFetchSt) : Nat × CurlFetchSt :=
  let realsize := size * nmemb
  match expand with
  | none => (1, { p with payload := none })
  | some fresh =>
    let expanded := realloc (p.payload.getD []) (p.size + realsize + 1) fresh
    let copied := copy expanded p.size contents (by simp [expanded, realsize, hsize])
    let terminated := copy copied (p.size + realsize) [0] (by simp [copied, expanded])
    (realsize, ⟨some terminated, p.size + realsize⟩)

/- A chunk of data, and what `realloc` does in the callback for it. -/
structure Delivery where
  chunk : Bytes
  expand : Option (Nat → UInt8)

def Delivery.Fails (d : Delivery) : Prop := d.expand = none

instance : DecidablePred Delivery.Fails := fun d => inferInstanceAs (Decidable (d.expand = none))

/-- `curl_easy_perform` delivers the chunks until the callback returns something else than the
length of its chunk. A transfer without that ends with the result `ended`. -/
def curlEasyPerform (ended : CURLcode) : List Delivery → CurlFetchSt → CURLcode × CurlFetchSt
  | [], p => (ended, p)
  | d :: rest, p =>
    let (taken, p) := curlCallback d.chunk 1 d.chunk.length (by simp) d.expand p
    if taken = d.chunk.length then curlEasyPerform ended rest p else (.writeError, p)

/-- `curl_fetch_url`; `calloc` tells whether the first allocation, of the size of a pointer,
succeeds. -/
def curlFetchUrl (calloc : Bool) (ended : CURLcode) (ds : List Delivery) (fetch : CurlFetchSt) :
    CURLcode × CurlFetchSt :=
  if calloc then curlEasyPerform ended ds ⟨some (List.replicate 8 0), 0⟩
  else (.failedInit, { fetch with payload := none })

/-- The data delivered. -/
def delivered (ds : List Delivery) : Bytes := ds.flatMap Delivery.chunk

/-- A fetch with the result `CURLE_OK` has all data delivered in the payload, with a zero behind. -/
def Fetched (ds : List Delivery) (r : CURLcode × CurlFetchSt) : Prop :=
  r.1 = .ok → ∃ payload, r.2.payload = some payload ∧
    payload.take r.2.size = delivered ds ∧ payload[r.2.size]? = some 0

/- The payload begins with the data collected, and a zero. -/
structure Collected (p : CurlFetchSt) (content : Bytes) : Prop where
  size : p.size = content.length
  payload : ∃ payload, p.payload = some payload ∧ content ++ [0] <+: payload

/-- Expanding the buffer adds a chunk to what it holds. -/
theorem collected_callback {p : CurlFetchSt} {content : Bytes} (h : Collected p content)
    (contents : Bytes) (size nmemb : Nat) (hsize : contents.length = size * nmemb)
    (fresh : Nat → UInt8) :
    Collected (curlCallback contents size nmemb hsize (some fresh) p).2 (content ++ contents) := by
  obtain ⟨payload, hpayload, hprefix⟩ := h.payload
  have hold : content <+: p.payload.getD [] := by
    rw [hpayload]
    exact (List.prefix_append _ _).trans hprefix
  have hexpanded := prefix_realloc hold
    (show content.length ≤ p.size + size * nmemb + 1 by rw [h.size]; omega) fresh
  have hbound : p.size + contents.length ≤
      (realloc (p.payload.getD []) (p.size + size * nmemb + 1) fresh).length := by
    rw [length_realloc, hsize]
    omega
  have hcopied := prefix_copy hexpanded h.size hbound
  have hlength : p.size + size * nmemb = (content ++ contents).length := by
    rw [List.length_append, h.size, hsize]
  exact ⟨hlength, _, rfl, prefix_copy hcopied hlength _⟩

theorem perform_cons_expanded (ended : CURLcode) {d : Delivery} {fresh : Nat → UInt8}
    (h : d.expand = some fresh) (ds : List Delivery) (p : CurlFetchSt) :
    curlEasyPerform ended (d :: ds) p =
      curlEasyPerform ended ds
        (curlCallback d.chunk 1 d.chunk.length (by simp) (some fresh) p).2 := by
  simp only [curlEasyPerform, h]
  rw [if_pos (by simp [curlCallback])]

/-- The value that stands for an error is the length of a chunk of one byte. -/
theorem perform_cons_failed (ended : CURLcode) {d : Delivery} (h : d.Fails) (ds : List Delivery)
    (p : CurlFetchSt) :
    curlEasyPerform ended (d :: ds) p =
      if d.chunk.length = 1 then curlEasyPerform ended ds { p with payload := none }
      else (.writeError, { p with payload := none }) := by
  simp only [curlEasyPerform, curlCallback, show d.expand = none from h, eq_comm (a := 1)]

/-- A transfer in which no allocation fails collects what is delivered. -/
theorem collected_perform {p : CurlFetchSt} {content : Bytes} (h : Collected p content)
    (ended : CURLcode) (ds : List Delivery) (hds : ∀ d ∈ ds, ¬ d.Fails) :
    (curlEasyPerform ended ds p).1 = ended ∧
      Collected (curlEasyPerform ended ds p).2 (content ++ delivered ds) := by
  induction ds generalizing p content with
  | nil => simpa [curlEasyPerform, delivered] using h
  | cons d ds ih =>
    cases he : d.expand with
    | none => exact absurd he (hds d List.mem_cons_self)
    | some fresh =>
      have hcollected := collected_callback h d.chunk 1 d.chunk.length (by simp) fresh
      rw [perform_cons_expanded ended he, delivered, List.flatMap_cons, ← List.append_assoc]
      exact ih hcollected fun d' hd' => hds d' (List.mem_cons_of_mem d hd')

/-- A chunk of another length ends the transfer with an error, if an allocation fails for it. -/
theorem perform_aborted (ended : CURLcode) (ds : List Delivery) (p : CurlFetchSt)
    (h : ∃ d ∈ ds, d.Fails ∧ d.chunk.length ≠ 1) :
    (curlEasyPerform ended ds p).1 = .writeError := by
  induction ds generalizing p with
  | nil =>
    obtain ⟨d, hd, _⟩ := h
    cases hd
  | cons d ds ih =>
    cases (List.exists_mem_cons_iff _ _ _).mp h with
    | inl hd => rw [perform_cons_failed ended hd.1, if_neg hd.2]
    | inr htail =>
      cases he : d.expand with
      | none =>
        rw [perform_cons_failed ended he]
        by_cases hone : d.chunk.length = 1
        · rw [if_pos hone]
          exact ih _ htail
        · rw [if_neg hone]
      | some fresh =>
        rw [perform_cons_expanded ended he]
        exact ih _ htail

/-- The chunks lost are missing in the size: each has one byte. -/
theorem perform_size (ended : CURLcode) (ds : List Delivery) (p : CurlFetchSt)
    (h : ∀ d ∈ ds, d.Fails → d.chunk.length = 1) :
    (curlEasyPerform ended ds p).1 = ended ∧
      (curlEasyPerform ended ds p).2.size + ds.countP (fun d => decide d.Fails) =
        p.size + (delivered ds).length := by
  induction ds generalizing p with
  | nil => simp [curlEasyPerform, delivered]
  | cons d ds ih =>
    have hlength : (delivered (d :: ds)).length = d.chunk.length + (delivered ds).length := by
      simp [delivered]
    have htail : ∀ d' ∈ ds, d'.Fails → d'.chunk.length = 1 :=
      fun d' hd' => h d' (List.mem_cons_of_mem d hd')
    cases he : d.expand with
    | none =>
      have hone : d.chunk.length = 1 := h d List.mem_cons_self he
      have hcount : (d :: ds).countP (fun d => decide d.Fails) =
          ds.countP (fun d => decide d.Fails) + 1 := List.countP_cons_of_pos (decide_eq_true he)
      rw [perform_cons_failed ended he, if_pos hone, hlength, hcount]
      obtain ⟨hended, hsize⟩ := ih { p with payload := none } htail
      refine ⟨hended, ?_⟩
      dsimp only at hsize
      omega
    | some fresh =>
      have hpos : ¬ d.Fails := by simp [Delivery.Fails, he]
      rw [perform_cons_expanded ended he, hlength, List.countP_cons_of_neg (by simpa using hpos)]
      obtain ⟨hended, hsize⟩ := ih
        (curlCallback d.chunk 1 d.chunk.length (by simp) (some fresh) p).2 htail
      refine ⟨hended, ?_⟩
      simp only [curlCallback] at hsize ⊢
      omega

theorem collected_calloc : Collected ⟨some (List.replicate 8 0), 0⟩ [] :=
  ⟨rfl, _, rfl, by decide⟩

theorem Collected.fetched {p : CurlFetchSt} {ds : List Delivery} (h : Collected p (delivered ds))
    (result : CURLcode) : Fetched ds (result, p) := by
  intro _
  obtain ⟨payload, hpayload, hprefix⟩ := h.payload
  have hterminated := terminated hprefix
  rw [← h.size] at hterminated
  exact ⟨payload, hpayload, hterminated⟩

/-- The size of a payload that has what was delivered. -/
theorem Fetched.size {ds : List Delivery} {r : CURLcode × CurlFetchSt} (h : Fetched ds r)
    (hok : r.1 = .ok) : r.2.size = (delivered ds).length := by
  obtain ⟨payload, _, hcontent, hzero⟩ := h hok
  obtain ⟨hlt, _⟩ := List.getElem?_eq_some_iff.mp hzero
  rw [← hcontent, List.length_take]
  omega

theorem cString_terminated (content rest : Bytes) :
    cString (content ++ 0 :: rest) = cString content := by
  induction content with
  | nil => simp [cString]
  | cons b content ih =>
    by_cases hb : b = 0
    · simp [cString, hb]
    · have hcons (tail : Bytes) : cString (b :: tail) = b :: cString tail :=
        List.takeWhile_cons_of_pos (by simpa using hb)
      rw [List.cons_append, hcons, hcons, ih]

/-- What the importer parses after a fetch without failing allocations: the answer as far as its
first zero. -/
theorem fetched_text (ds : List Delivery) (fetch : CurlFetchSt) (hds : ∀ d ∈ ds, ¬ d.Fails) :
    ∃ payload, (curlFetchUrl true .ok ds fetch).2.payload = some payload ∧
      cString payload = cString (delivered ds) := by
  obtain ⟨_, hcollected⟩ := collected_perform collected_calloc .ok ds hds
  obtain ⟨payload, hpayload, rest, rfl⟩ := hcollected.payload
  refine ⟨_, hpayload, ?_⟩
  rw [List.nil_append, List.append_assoc]
  exact cString_terminated (delivered ds) rest

/-- A fetch reports no success without the whole answer exactly if the allocation of the buffer
fails, the transfer ends with an error of its own, expanding the buffer fails for a chunk of
another length than one byte, or it never fails. -/
theorem fetched_iff (calloc : Bool) (ended : CURLcode) (ds : List Delivery) (fetch : CurlFetchSt) :
    Fetched ds (curlFetchUrl calloc ended ds fetch) ↔
      calloc = false ∨ ended ≠ .ok ∨ (∃ d ∈ ds, d.Fails ∧ d.chunk.length ≠ 1) ∨
        ∀ d ∈ ds, ¬ d.Fails := by
  cases calloc with
  | false =>
    refine iff_of_true ?_ (Or.inl rfl)
    intro hok
    cases hok
  | true =>
    rw [curlFetchUrl, if_pos rfl]
    by_cases habort : ∃ d ∈ ds, d.Fails ∧ d.chunk.length ≠ 1
    · refine iff_of_true ?_ (Or.inr (Or.inr (Or.inl habort)))
      intro hok
      rw [perform_aborted ended ds _ habort] at hok
      cases hok
    · have hone : ∀ d ∈ ds, d.Fails → d.chunk.length = 1 := by
        intro d hd hfails
        by_contra hne
        exact habort ⟨d, hd, hfails, hne⟩
      obtain ⟨hended, hsize⟩ := perform_size ended ds ⟨some (List.replicate 8 0), 0⟩ hone
      by_cases hok : ended = .ok
      · simp only [hok, habort, ne_eq, not_true_eq_false, Bool.true_eq_false, false_or]
        rw [hok] at hended hsize
        constructor
        · intro h
          have hall := h.size hended
          have hcount : ds.countP (fun d => decide d.Fails) = 0 := by
            dsimp only at hsize
            omega
          simpa using List.countP_eq_zero.mp hcount
        · intro hds
          exact (collected_perform collected_calloc .ok ds hds).2.fetched _
      · refine iff_of_true ?_ (Or.inr (Or.inl hok))
        intro h
        exact absurd (hended.symm.trans h) hok

/- The answer `[7]` in chunks; for the second one, of a single byte, `realloc` fails. -/
def chunksOfSeven : List Delivery :=
  [⟨text "[", some fun _ => 0⟩, ⟨text "7", none⟩, ⟨text "]", some fun _ => 32⟩]

theorem byte_lost : ∃ p, curlFetchUrl true .ok chunksOfSeven ⟨none, 0⟩ = (.ok, p) ∧
    p.payload = some (text " ]" ++ [0]) ∧ p.size = 2 ∧ delivered chunksOfSeven = text "[7]" ∧
    ¬ Fetched chunksOfSeven (.ok, p) := by
  refine ⟨_, rfl, by decide, rfl, by decide, ?_⟩
  intro h
  have hsize := h.size rfl
  revert hsize
  decide

end OpcUaTestTool.CurlFetch
