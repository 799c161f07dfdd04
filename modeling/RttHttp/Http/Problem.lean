import RttHttp.Http.Message
import RttHttp.Json.Output
import RttHttp.Route.Grammar
import RttHttp.Text.Scalars
import Mathlib.Data.Nat.Digits.Lemmas

/-! # Problem responses fit their reserve

A problem document has at most four members. Whatever bytes the target has, the
instance is cut at 512 of them and written with at most six bytes each, so that the
document stays below the 4096 bytes of its reserve and is never replaced by the
fallback.
-/

namespace RttHttp.Http

open Codec (codecFailure)
open Route (originPath originPath_eq)

/-- The suffixes that the server passes to `problem`. -/
def suffixes : List String :=
  ["operation-capacity-exhausted", "response-too-large", "value-not-json-representable",
    "port-not-connected", "port-write-failed"]

/-- An `int` status, with one of the suffixes of the server or without one. -/
structure Called (status : Nat) (suffix : Option String) : Prop where
  status_lt : status < 2 ^ 31
  suffix_mem : ∀ text ∈ suffix, text ∈ suffixes

/-- What is assumed of the library: the titles of `httplib::status_message` are short
UTF-8 texts, and a problem document is serialized within the allocation reserve. -/
structure Library.Reserved (library : Library) (double : Double → Bytes) : Prop where
  title_length : ∀ status, (library.statusMessage status).length ≤ 64
  title_valid : ∀ status, WellFormedUtf8 (library.statusMessage status)
  serializes : ∀ request status suffix,
    library.serializeJson (.object (problemBody library request status suffix)) problemLimits =
      .ok ((RttHttp.serializeJson double (.object (problemBody library request status suffix))
        problemLimits).mapError fun code => codecFailure (code.getD .internalError))

/-! ## The members of a problem document -/

/-- The type of a problem document. -/
def problemType (status : Nat) (suffix : Option String) : Bytes :=
  bytes "urn:rtt-http:error:" ++ bytes (suffix.getD (suffixFor status))

/-- The status as the `int` member of a document. -/
theorem toInt_ofNat_status {status : Nat} (hstatus : status < 2 ^ 31) :
    (Int64.ofNat status).toInt = status := by
  rw [← Int64.ofInt_eq_ofNat, Int64.toInt_ofInt_of_le (by omega) (by omega)]

theorem problemBody_eq (library : Library) (request : Request) (status : Nat)
    (suffix : Option String) :
    problemBody library request status suffix =
      [(bytes "type", .string (problemType status suffix)),
        (bytes "title", .string (library.statusMessage status)),
        (bytes "status", .int64 (Int64.ofNat status))] ++
      if request.path.length ≤ 512 ∧ validUtf8 request.path = true then
        [(bytes "instance", .string request.path)]
      else [] := by
  unfold problemBody problemType
  dsimp only
  split
  next => rfl
  next => rw [List.append_nil]

theorem path_eq (request : Request) : request.path = originPath request.target :=
  originPath_eq request.target

theorem suffix_short {text : String} (h : text ∈ suffixes) :
    (bytes text).length ≤ 28 ∧ ∀ c ∈ bytes text, c < 0x80 := by
  have hall : ∀ text ∈ suffixes, (bytes text).length ≤ 28 ∧ ∀ c ∈ bytes text, c < 0x80 := by
    decide +kernel
  exact hall text h

theorem suffixFor_short (status : Nat) :
    (bytes (suffixFor status)).length ≤ 28 ∧ ∀ c ∈ bytes (suffixFor status), c < 0x80 := by
  unfold suffixFor
  split <;> decide +kernel

/-- The type is ASCII of at most 47 bytes. -/
theorem problemType_short {status : Nat} {suffix : Option String} (hcalled : Called status suffix) :
    (problemType status suffix).length ≤ 47 ∧ ∀ c ∈ problemType status suffix, c < 0x80 := by
  have hprefix : (bytes "urn:rtt-http:error:").length = 19 ∧
      ∀ c ∈ bytes "urn:rtt-http:error:", c < 0x80 := by decide +kernel
  have hsuffix : (bytes (suffix.getD (suffixFor status))).length ≤ 28 ∧
      ∀ c ∈ bytes (suffix.getD (suffixFor status)), c < 0x80 := by
    cases suffix with
    | none => exact suffixFor_short status
    | some text => exact suffix_short (hcalled.suffix_mem text rfl)
  rw [problemType, List.length_append, hprefix.1, List.forall_mem_append]
  exact ⟨by omega, hprefix.2, hsuffix.2⟩

/-- A status has at most ten digits. -/
theorem length_toChars_status {status : Nat} (hstatus : status < 2 ^ 31) :
    (toChars (Int64.ofNat status).toInt).length ≤ 10 := by
  have hdigits : (Nat.digits 10 status).length ≤ 10 := by
    rw [Nat.digits_length_le_iff (by decide)]
    omega
  rw [toInt_ofNat_status hstatus, toChars, if_neg (by omega), Int.natAbs_natCast, decimal]
  split
  next => simp
  next => simpa using hdigits

theorem depth_problemBody (library : Library) (request : Request) (status : Nat)
    (suffix : Option String) :
    (Json.object (problemBody library request status suffix)).depth ≤ problemLimits.maxDepth := by
  rw [problemBody_eq]
  split
  next => simp [Json.depth, membersDepth, problemLimits]
  next => simp [Json.depth, membersDepth, problemLimits]

/-! ## The document fits -/

section Fits

variable {library : Library} {double : Double → Bytes} (hlibrary : library.Reserved double)
  {status : Nat} {suffix : Option String} (hcalled : Called status suffix) (request : Request)

include hlibrary hcalled

theorem problemBody_clean : (Json.object (problemBody library request status suffix)).Clean := by
  have htype : validUtf8 (problemType status suffix) = true :=
    validUtf8_ascii (problemType_short hcalled).2
  have htitle : validUtf8 (library.statusMessage status) = true :=
    (validUtf8_exact _).1.mpr (hlibrary.title_valid status)
  have hname : validUtf8 (bytes "type") = true ∧ validUtf8 (bytes "title") = true ∧
      validUtf8 (bytes "status") = true ∧ validUtf8 (bytes "instance") = true := by decide
  rw [problemBody_eq, Json.Clean]
  split
  next hpath => simp [CleanMembers, Json.Clean, htype, htitle, hname, hpath.2]
  next => simp [CleanMembers, Json.Clean, htype, htitle, hname]

/-- The length of the document, with six bytes for each byte of its strings. -/
theorem length_problemBody_le :
    (serialize double (.object (problemBody library request status suffix))).length ≤ 4096 := by
  have htype := length_quoted_le (problemType status suffix)
  have htitle := length_quoted_le (library.statusMessage status)
  have hpath := length_quoted_le request.path
  have hstatus := length_toChars_status hcalled.status_lt
  have hshort := (problemType_short hcalled).1
  have htitleShort := hlibrary.title_length status
  have hname : (quoted (bytes "type")).length = 6 ∧ (quoted (bytes "title")).length = 7 ∧
      (quoted (bytes "status")).length = 8 ∧ (quoted (bytes "instance")).length = 10 := by decide
  rw [serialize, List.length_cons, List.length_append, List.length_singleton,
    length_serializeMembers, problemBody_eq]
  split
  next hinstance =>
    simp only [List.cons_append, List.nil_append, List.map_cons, List.map_nil, List.sum_cons,
      List.sum_nil, List.length_cons, List.length_nil, memberLength, serialize, separators, hname]
    omega
  next =>
    simp only [List.append_nil, List.map_cons, List.map_nil, List.sum_cons, List.sum_nil,
      List.length_cons, List.length_nil, memberLength, serialize, separators, hname]
    omega

/-- The serializer never refuses a problem document. -/
theorem serializes_problemBody :
    library.serializeJson (.object (problemBody library request status suffix)) problemLimits =
      .ok (.ok (serialize double (.object (problemBody library request status suffix)))) := by
  have hlength : ¬ problemLimits.maxDocumentBytes <
      (serialize double (.object (problemBody library request status suffix))).length :=
    Nat.not_lt.mpr (length_problemBody_le hlibrary hcalled request)
  have hdepth := depth_problemBody library request status suffix
  rw [hlibrary.serializes, serializeJson, validateOutput_clean
    (problemBody_clean hlibrary hcalled request), if_neg (Nat.not_lt.mpr hdepth)]
  dsimp only
  rw [if_neg hlength]
  rfl

end Fits

/-! ## Members by name -/

theorem find?_status (library : Library) (request : Request) (status : Nat)
    (suffix : Option String) :
    JsonObject.find? (problemBody library request status suffix) (bytes "status") =
      some (.int64 (Int64.ofNat status)) := by
  have htype : bytes "status" ≠ bytes "type" := by decide
  have htitle : bytes "status" ≠ bytes "title" := by decide
  rw [problemBody_eq, List.cons_append, List.cons_append, List.cons_append,
    JsonObject.find?_cons, if_neg htype, JsonObject.find?_cons, if_neg htitle,
    JsonObject.find?_cons, if_pos rfl]

/-- The instance is there exactly for a short well-formed path. -/
theorem find?_instance (library : Library) (request : Request) (status : Nat)
    (suffix : Option String) :
    JsonObject.find? (problemBody library request status suffix) (bytes "instance") =
      if request.path.length ≤ 512 ∧ validUtf8 request.path = true then some (.string request.path)
      else none := by
  have htype : bytes "instance" ≠ bytes "type" := by decide
  have htitle : bytes "instance" ≠ bytes "title" := by decide
  have hstatus : bytes "instance" ≠ bytes "status" := by decide
  rw [problemBody_eq, List.cons_append, List.cons_append, List.cons_append,
    JsonObject.find?_cons, if_neg htype, JsonObject.find?_cons, if_neg htitle,
    JsonObject.find?_cons, if_neg hstatus, List.nil_append]
  split
  next => rw [JsonObject.find?_cons, if_pos rfl]
  next => rw [JsonObject.find?_nil]

/-- A problem response always carries its own document: it fits the reserve, names the
requested status, and has the path of the target as its instance whenever that path
is short and well formed. -/
theorem problem_never_falls_back {library : Library} {double : Double → Bytes}
    (hlibrary : library.Reserved double) {status : Nat} {suffix : Option String}
    (hcalled : Called status suffix) (request : Request) (response : Response) :
    ∃ body encoded, problemBody library request status suffix = body ∧
      problem library request response status suffix = .ok { response with
        status := some status
        content := some (encoded, bytes "application/problem+json") } ∧
      encoded = serialize double (.object body) ∧ encoded.length ≤ 4096 ∧
      (Json.object body).depth ≤ 8 ∧
      (∃ number, JsonObject.find? body (bytes "status") = some (.int64 number) ∧
        number.toInt = status) ∧
      ∀ value, JsonObject.find? body (bytes "instance") = some value ↔
        (originPath request.target).length ≤ 512 ∧ WellFormedUtf8 (originPath request.target) ∧
          value = .string (originPath request.target) := by
  refine ⟨_, _, rfl, ?_, rfl, length_problemBody_le hlibrary hcalled request,
    depth_problemBody library request status suffix, ?_, fun value => ?_⟩
  · rw [problem, serializes_problemBody hlibrary hcalled request]
  · exact ⟨_, find?_status library request status suffix, toInt_ofNat_status hcalled.status_lt⟩
  · rw [find?_instance, path_eq, ← (validUtf8_exact _).1]
    split
    next hpath =>
      rw [Option.some.injEq]
      exact ⟨fun h => ⟨hpath.1, hpath.2, h.symm⟩, fun h => h.2.2.symm⟩
    next hpath =>
      refine iff_of_false nofun ?_
      rintro ⟨hlength, hvalid, -⟩
      exact hpath ⟨hlength, hvalid⟩

/-- A library with the real serializer and two of the titles. -/
def plainLibrary : Library where
  statusMessage status := if status = 404 then bytes "Not Found" else bytes "Internal Server Error"
  parseJson _ _ := .ok (.ok .null)
  serializeJson value limits := .ok ((RttHttp.serializeJson (fun _ => []) value limits).mapError
    fun code => codecFailure (code.getD .internalError))
  throws _ := none

theorem plainLibrary_reserved : plainLibrary.Reserved fun _ => [] := by
  have hshort : ∀ status, (plainLibrary.statusMessage status).length ≤ 64 ∧
      ∀ c ∈ plainLibrary.statusMessage status, c < 0x80 := by
    intro status
    unfold plainLibrary
    dsimp only
    split <;> decide +kernel
  exact {
    title_length := fun status => (hshort status).1
    title_valid := fun status => (validUtf8_exact _).1.mp (validUtf8_ascii (hshort status).2)
    serializes := fun _ _ _ => rfl }

/-- The answer to a request for a path with a quote in it. -/
theorem problem_never_falls_back_quote :
    problem plainLibrary ⟨bytes "GET", bytes "/a\"b?c", [], []⟩ {} 404 none = .ok {
      status := some 404
      content := some (bytes ("\x7b\"type\":\"urn:rtt-http:error:not-found\",\"title\":" ++
        "\"Not Found\",\"status\":404,\"instance\":\"/a\\\"b\"\x7d"),
        bytes "application/problem+json") } := by
  have hcalled : Called 404 none := ⟨by decide, nofun⟩
  obtain ⟨body, encoded, rfl, hproblem, rfl, -⟩ := problem_never_falls_back plainLibrary_reserved
    hcalled ⟨bytes "GET", bytes "/a\"b?c", [], []⟩ {}
  have hencoded : serialize (fun _ => []) (.object (problemBody plainLibrary
      ⟨bytes "GET", bytes "/a\"b?c", [], []⟩ 404 none)) =
      bytes ("\x7b\"type\":\"urn:rtt-http:error:not-found\",\"title\":" ++
        "\"Not Found\",\"status\":404,\"instance\":\"/a\\\"b\"\x7d") := by decide +kernel
  rw [hproblem, hencoded]

end RttHttp.Http
