import YamlSpan.Http.Service
import YamlSpan.Proofs.Digits

/-!
# The limit on request bodies is exact

The octets of a body are counted while they arrive, and counting stops as soon as there are too
many.  What has been counted is never more than what arrives in all, so the outcome is that of the
whole body, however it is cut into chunks.  The length that a header declares can only turn a
request away.  But a header that is looked at as a number need not be one that can be read: digits
that belong to no decimal system, and numbers with too many digits, end in a fault.

* `declaredLength_error_iff`    the headers that cannot be read
* `receive_eq`                  what arrives of a body depends on the whole body only
* `screen_cases`                what can become of a request
* `route_status_ne`             what is let through is not answered as too large
* `body_limit_exact`            the limit is exact, for headers that can be read
* `length_header_faults_iff`    the others end in a fault
-/

namespace YamlSpan

/-! ### headers -/

theorem Radix.hasDigit_of_isDigit {c : Char} (h : c.isDigit = true) : decimal.HasDigit c := by
  have hc : c.toNat < 128 := by
    rw [Char.isDigit, Bool.and_eq_true, decide_eq_true_eq, decide_eq_true_eq] at h
    have hle : c.toNat ≤ '9'.toNat := UInt32.le_iff_toNat_le.mp h.2
    have hnine : '9'.toNat < 128 := by decide
    omega
  refine forall_ascii (P := fun c => c.isDigit = true → decimal.HasDigit c) ?_ hc h
  decide +kernel

/-- The characters that are folded to a decimal digit are those with a decimal value. -/
theorem Numeral.hasDigit_fold_iff (c : Char) :
    Radix.decimal.HasDigit (fold c) ↔ (Text.decimalValue? c).isSome = true := by
  rw [fold]
  split
  next hlow =>
    have hall : ∀ n < 128, Radix.decimal.HasDigit (Char.ofNat n)
        ↔ (Text.decimalValue? (Char.ofNat n)).isSome = true := by decide +kernel
    exact forall_ascii (P := fun c => Radix.decimal.HasDigit c
      ↔ (Text.decimalValue? c).isSome = true) hall (by omega)
  next hhigh =>
    split
    next hmargin =>
      have hnone := Text.isDigit_of_margin hmargin (Nat.not_lt.mp hhigh)
      rw [Text.isDigit, Bool.or_eq_false_iff] at hnone
      rw [hnone.1]
      decide
    next =>
      split
      next v hv =>
        have hall : ∀ v < 10, Radix.decimal.HasDigit (Nat.digitChar v) := by decide +kernel
        exact iff_of_true (hall v (Text.decimalValue?_lt hv)) (by rw [hv]; rfl)
      next hv =>
        rw [hv]
        decide

namespace Http

/-- Does a header consist of digits, of any kind, so that it is looked at as a number? -/
def IsDigits (header : String) : Prop := header ≠ "" ∧ ∀ c ∈ header.toList, Text.isDigit c = true

/-- Is a header a decimal number? -/
def IsDecimal (header : String) : Prop := header ≠ "" ∧ ∀ c ∈ header.toList, c.isDigit = true

/-- The value of a decimal number. -/
def decimalOf (header : String) : Nat := Radix.decimal.valueOf header.toList

theorem IsDecimal.fold_eq {header : String} (h : IsDecimal header) :
    ∀ c ∈ header.toList, Numeral.fold c = c := by
  intro c hc
  exact (Radix.hasDigit_of_isDigit (h.2 c hc)).apart.2.2.2.2

theorem IsDecimal.hasDigit_fold {header : String} (h : IsDecimal header) :
    ∀ c ∈ header.toList, Radix.decimal.HasDigit (Numeral.fold c) := by
  intro c hc
  rw [h.fold_eq c hc]
  exact Radix.hasDigit_of_isDigit (h.2 c hc)

theorem IsDecimal.isDigits {header : String} (h : IsDecimal header) : IsDigits header :=
  ⟨h.1, fun c hc => Numeral.isDigit_of_fold (h.hasDigit_fold c hc)⟩

theorem declaredLength_of_isDigits {header : String} (h : IsDigits header) :
    declaredLength (some header) = (Numeral.read 10 header.toList).map some := by
  have hdigits : (header.toList.isEmpty || !header.toList.all Text.isDigit) = false := by
    simpa [IsDigits] using h
  rw [declaredLength, hdigits]
  rfl

theorem declaredLength_of_not_isDigits {header : String} (h : ¬ IsDigits header) :
    declaredLength (some header) = .ok none := by
  have hdigits : (header.toList.isEmpty || !header.toList.all Text.isDigit) = true := by
    by_contra hfalse
    exact h (by simpa [IsDigits] using hfalse)
  rw [declaredLength, hdigits]
  rfl

/-- Digits that all have a decimal value are a number, unless there are too many. -/
theorem read_of_values {header : String} (hne : header ≠ "")
    (hvalues : ∀ c ∈ header.toList, (Text.decimalValue? c).isSome = true) :
    Numeral.read 10 header.toList
      = if Numeral.digitLimit < header.length then .error (.tooLong header.length)
        else .ok (Radix.decimal.valueOf (header.toList.map Numeral.fold) : Int) := by
  have hfolded : header.toList.map Numeral.fold ≠ [] := by simpa using hne
  have hdigits : ∀ c ∈ header.toList.map Numeral.fold, Radix.decimal.HasDigit c := by
    intro c hc
    obtain ⟨d, hd, rfl⟩ := List.mem_map.mp hc
    exact (Numeral.hasDigit_fold_iff d).mpr (hvalues d hd)
  have hread := Numeral.read_form (Numeral.Form.ofDigits hfolded hdigits)
    (Numeral.Form.chars_ofDigits hfolded hdigits).symm
  have hlength : (Numeral.Form.ofDigits hfolded hdigits).digits.length = header.length := by
    show (header.toList.map Numeral.fold).length = header.length
    rw [List.length_map, String.length_toList]
  rw [hlength, Numeral.Form.value_ofDigits] at hread
  simp only [true_and] at hread
  exact hread

theorem declaredLength_of_isDecimal {header : String} (h : IsDecimal header) :
    declaredLength (some header)
      = if Numeral.digitLimit < header.length then .error (.tooLong header.length)
        else .ok (some (decimalOf header)) := by
  have hvalues : ∀ c ∈ header.toList, (Text.decimalValue? c).isSome = true :=
    fun c hc => (Numeral.hasDigit_fold_iff c).mp (h.hasDigit_fold c hc)
  rw [declaredLength_of_isDigits h.isDigits, read_of_values h.1 hvalues, decimalOf,
    List.map_congr_left h.fold_eq, List.map_id']
  split <;> rfl

/-- Digits are a number only if all of them have a decimal value. -/
theorem values_of_read {header : String} (h : IsDigits header) {n : Int}
    (hread : Numeral.read 10 header.toList = .ok n) :
    ∀ c ∈ header.toList, (Text.decimalValue? c).isSome = true := by
  obtain ⟨f, hf⟩ := Numeral.exists_form_of_read (r := .decimal) hread
  -- no digit is folded to a margin or a sign, so the numeral has no parts besides its digits
  have htight : Numeral.IsTight .decimal f.chars := by
    rw [← hf]
    refine Numeral.isTight_of_forall (fun c hc => ?_) fun letter more _ hletter => nomatch hletter
    obtain ⟨d, hd, rfl⟩ := List.mem_map.mp hc
    exact Numeral.fold_of_isDigit (h.2 d hd)
  obtain ⟨-, hdigits⟩ := f.of_isTight htight
  intro c hc
  refine (Numeral.hasDigit_fold_iff c).mp (f.digits_valid _ ?_)
  rw [← hdigits, ← hf]
  exact List.mem_map_of_mem hc

theorem read_error_iff {header : String} (h : IsDigits header) :
    (∃ e, Numeral.read 10 header.toList = .error e)
      ↔ (∃ c ∈ header.toList, Text.decimalValue? c = none)
        ∨ Numeral.digitLimit < header.length := by
  by_cases hvalueless : ∃ c ∈ header.toList, Text.decimalValue? c = none
  · refine iff_of_true ?_ (.inl hvalueless)
    obtain ⟨c, hc, hnone⟩ := hvalueless
    cases hread : Numeral.read 10 header.toList with
    | error e => exact ⟨e, rfl⟩
    | ok n =>
      have hsome := values_of_read h hread c hc
      rw [hnone] at hsome
      cases hsome
  · have hvalues : ∀ c ∈ header.toList, (Text.decimalValue? c).isSome = true := by
      intro c hc
      rw [Option.isSome_iff_ne_none]
      intro hnone
      exact hvalueless ⟨c, hc, hnone⟩
    rw [read_of_values h.1 hvalues, or_iff_right hvalueless]
    by_cases hlong : Numeral.digitLimit < header.length
    · rw [if_pos hlong]
      exact iff_of_true ⟨_, rfl⟩ hlong
    · rw [if_neg hlong]
      refine iff_of_false ?_ hlong
      rintro ⟨e, ⟨⟩⟩

/-- A header that is looked at as a number but cannot be read as one. -/
def IsUnreadable (header : String) : Prop :=
  IsDigits header
    ∧ ((∃ c ∈ header.toList, Text.decimalValue? c = none) ∨ Numeral.digitLimit < header.length)

theorem declaredLength_error_iff (header : Option String) :
    (∃ e, declaredLength header = .error e) ↔ ∃ text, header = some text ∧ IsUnreadable text := by
  cases header with
  | none => simp [declaredLength]
  | some text =>
    simp only [Option.some.injEq, exists_eq_left']
    by_cases hdigits : IsDigits text
    · rw [declaredLength_of_isDigits hdigits, IsUnreadable, and_iff_right hdigits,
        ← read_error_iff hdigits]
      cases Numeral.read 10 text.toList <;> simp [Except.map]
    · rw [declaredLength_of_not_isDigits hdigits]
      refine iff_of_false ?_ fun h => hdigits h.1
      rintro ⟨e, ⟨⟩⟩

/-! ### bodies -/

/-- What arrives of a body depends on the whole of it only. -/
theorem receive_eq (limit : Int) (received : List Nat) (chunks : List (List Nat)) :
    receive limit received chunks
      = if limit < (received ++ chunks.flatten).length then none
        else some (received ++ chunks.flatten) := by
  induction chunks generalizing received with
  | nil => rw [receive, List.flatten_nil, List.append_nil]
  | cons chunk rest ih =>
    rw [receive, ih, List.flatten_cons, List.append_assoc]
    by_cases hover : limit < (received ++ chunk).length
    · -- there can only be more octets in the end
      have htotal : limit < (received ++ (chunk ++ rest.flatten)).length := by
        simp only [List.length_append] at hover ⊢
        omega
      rw [if_pos hover, if_pos htotal]
    · rw [if_neg hover]

theorem screenBody_eq (limit : Int) {method : String} (hmethod : hasBody method = true)
    (chunks : List (List Nat)) :
    screenBody limit method chunks
      = if limit < chunks.flatten.length then .tooLarge else .passed chunks.flatten := by
  rw [screenBody, if_pos hmethod, receive_eq, List.nil_append]
  by_cases hover : limit < chunks.flatten.length
  · rw [if_pos hover, if_pos hover]
  · rw [if_neg hover, if_neg hover]

/-- How a body is cut into chunks does not matter. -/
theorem screen_congr (limit : Int) (method : String) (header : Option String)
    {chunks chunks' : List (List Nat)} (h : chunks.flatten = chunks'.flatten) :
    screen limit method header chunks = screen limit method header chunks' := by
  have hbody : screenBody limit method chunks = screenBody limit method chunks' := by
    rw [screenBody, screenBody, receive_eq, receive_eq, h]
  rw [screen, screen, hbody]

/-- A request whose header can be read, or is not looked at. -/
theorem screen_of_ok {header : Option String} {declared : Option Int}
    (h : declaredLength header = .ok declared) (limit : Int) (method : String)
    (chunks : List (List Nat)) :
    screen limit method header chunks
      = if ∃ n ∈ declared, limit < n then .tooLarge else screenBody limit method chunks := by
  rw [screen, h]
  cases declared <;> simp

theorem screen_of_error {header : Option String} {e : Numeral.Error}
    (h : declaredLength header = .error e) (limit : Int) (method : String)
    (chunks : List (List Nat)) : screen limit method header chunks = .fault e := by
  rw [screen, h]

/-- What is let through is the whole body, and not more than the limit if it was read. -/
theorem screenBody_cases (limit : Int) (method : String) (chunks : List (List Nat)) :
    screenBody limit method chunks = .tooLarge
      ∨ (screenBody limit method chunks = .passed chunks.flatten
        ∧ (hasBody method = true → (chunks.flatten.length : Int) ≤ limit)) := by
  by_cases hmethod : hasBody method = true
  · rw [screenBody_eq limit hmethod]
    by_cases hover : limit < chunks.flatten.length
    · exact .inl (if_pos hover)
    · exact .inr ⟨if_neg hover, fun _ => Int.not_lt.mp hover⟩
  · exact .inr ⟨by rw [screenBody, if_neg hmethod], fun h => absurd h hmethod⟩

/-- A header that cannot be read is a fault; otherwise the request is turned away or let through. -/
theorem screen_cases (limit : Int) (method : String) (header : Option String)
    (chunks : List (List Nat)) :
    (∃ e, declaredLength header = .error e ∧ screen limit method header chunks = .fault e)
    ∨ ∃ declared, declaredLength header = .ok declared
      ∧ (screen limit method header chunks = .tooLarge
        ∨ (screen limit method header chunks = .passed chunks.flatten
          ∧ (hasBody method = true → (chunks.flatten.length : Int) ≤ limit))) := by
  cases h : declaredLength header with
  | error e => exact .inl ⟨e, rfl, screen_of_error h limit method chunks⟩
  | ok declared =>
    refine .inr ⟨declared, rfl, ?_⟩
    rw [screen_of_ok h]
    split
    · exact .inl rfl
    · exact screenBody_cases limit method chunks

theorem screen_passed {limit : Int} {method : String} {header : Option String}
    {chunks : List (List Nat)} {body : List Nat} (hmethod : hasBody method = true)
    (h : screen limit method header chunks = .passed body) :
    body = chunks.flatten ∧ (body.length : Int) ≤ limit := by
  obtain ⟨e, -, hfault⟩ | ⟨_, -, hlarge | ⟨hpassed, hlimit⟩⟩ :=
    screen_cases limit method header chunks
  · exact nomatch hfault.symm.trans h
  · exact nomatch hlarge.symm.trans h
  · cases hpassed.symm.trans h
    exact ⟨rfl, hlimit hmethod⟩

/-! ### answers -/

theorem ok_status_ne {status : Nat} (h : status ≠ 413) (value : Json) :
    (ok status value).status ≠ 413 := by
  rw [ok]
  split
  · exact h
  · decide

theorem tooLarge_status (limit : Int) : (tooLarge limit).status = 413 := by
  have hstring : ∀ s : String, Text.isWellFormed s = true :=
    fun s => Text.isWellFormed_ofChars s.toList
  have happend : ∀ a b : Text, Text.isWellFormed (a ++ b) = (a.isWellFormed && b.isWellFormed) :=
    fun _ _ => List.all_append
  rw [tooLarge, detail, ok, if_pos]
  simp [Json.isSendable, Json.areMembersSendable, hstring, happend]

theorem rejected_status_ne (body : Json) (issues : List Issue) :
    (rejected body issues).status ≠ 413 :=
  ok_status_ne (by decide) _

theorem readBody_status_ne {body : List Nat} {response : Response}
    (h : readBody body = .error response) : response.status ≠ 413 := by
  rw [readBody] at h
  split at h
  · cases h
    exact rejected_status_ne _ _
  · split at h
    · cases h
      exact ok_status_ne (by decide) _
    · split at h <;> cases h
      · exact rejected_status_ne _ _
      · exact ok_status_ne (by decide) _

theorem answerParse_status_ne (settings : Settings) (request : ParseRequest) :
    (answerParse settings request).status ≠ 413 := by
  rw [answerParse]
  split
  · exact ok_status_ne (by decide) _
  · exact ok_status_ne (by decide) _
  · decide

theorem handleParse_status_ne (settings : Settings) (body : List Nat) :
    (handleParse settings body).status ≠ 413 := by
  rw [handleParse]
  split
  next response hread => exact readBody_status_ne hread
  next members _ =>
    split
    next request _ => exact answerParse_status_ne settings request
    next issues _ => exact rejected_status_ne _ issues
  next value _ _ => exact rejected_status_ne value _

/-- No request that is let through is answered as too large. -/
theorem route_status_ne (settings : Settings) (method path : String) (body : List Nat) :
    (route settings method path body).status ≠ 413 := by
  have hwrong : wrongMethod.status ≠ 413 := ok_status_ne (by decide) _
  rw [route]
  split
  next endpoint _ =>
    cases endpoint with
    | parse =>
      rw [Endpoint.answer]
      split
      · exact handleParse_status_ne settings body
      · exact hwrong
    | health =>
      rw [Endpoint.answer]
      split
      · exact ok_status_ne (by decide) _
      · exact hwrong
  next =>
    split
    · decide
    · exact ok_status_ne (by decide) _

theorem respond_status_iff (settings : Settings) (request : Request) :
    (respond settings request).status = 413
      ↔ screen settings.maxBodyBytes request.method request.contentLength request.chunks
        = .tooLarge := by
  rw [respond]
  cases screen settings.maxBodyBytes request.method request.contentLength request.chunks with
  | tooLarge => exact iff_of_true (tooLarge_status _) rfl
  | fault e =>
    refine iff_of_false ?_ (by rintro ⟨⟩)
    show broken.status ≠ 413
    decide
  | passed body =>
    refine iff_of_false ?_ (by rintro ⟨⟩)
    exact route_status_ne settings request.method request.path body

theorem respond_of_error (settings : Settings) (request : Request) {e : Numeral.Error}
    (h : declaredLength request.contentLength = .error e) : respond settings request = broken := by
  rw [respond, screen_of_error h]

/-! ### the limit -/

/-- A header that can be read or is not looked at: it is missing, does not consist of digits, or is
a decimal number of not too many digits. -/
inductive IsReadable : Option String → Prop where
  | missing : IsReadable none
  | ignored {text : String} (h : ¬ IsDigits text) : IsReadable (some text)
  | decimal {text : String} (h : IsDecimal text) (hlimit : text.length ≤ Numeral.digitLimit) :
    IsReadable (some text)

/-- A header is a decimal number above a limit. -/
def DeclaresOver (limit : Int) (header : Option String) : Prop :=
  ∃ text, header = some text ∧ IsDecimal text ∧ limit < decimalOf text

theorem IsReadable.declaredLength {header : Option String} (h : IsReadable header) :
    ∃ declared, Http.declaredLength header = .ok declared
      ∧ ∀ limit, (∃ n ∈ declared, limit < n) ↔ DeclaresOver limit header := by
  cases h with
  | missing => exact ⟨none, rfl, fun limit => by simp [DeclaresOver]⟩
  | @ignored text h =>
    refine ⟨none, declaredLength_of_not_isDigits h, fun limit => iff_of_false (by simp) ?_⟩
    rintro ⟨_, ⟨⟩, hdecimal, -⟩
    exact h hdecimal.isDigits
  | @decimal text h hlimit =>
    refine ⟨some (decimalOf text), ?_, fun limit => ?_⟩
    · rw [declaredLength_of_isDecimal h, if_neg (Nat.not_lt.mpr hlimit)]
    · simp [DeclaresOver, h]

/-- What becomes of a request of a method with a body. -/
theorem screen_of_isReadable (limit : Int) {method : String} (hmethod : hasBody method = true)
    {header : Option String} (hheader : IsReadable header) (chunks : List (List Nat)) :
    let exceeds := DeclaresOver limit header ∨ limit < chunks.flatten.length
    (exceeds → screen limit method header chunks = .tooLarge)
      ∧ (¬ exceeds → screen limit method header chunks = .passed chunks.flatten) := by
  intro exceeds
  obtain ⟨declared, hdeclared, hdeclares⟩ := hheader.declaredLength
  have hover : (∃ n ∈ declared, limit < n) ∨ limit < chunks.flatten.length ↔ exceeds :=
    or_congr_left (hdeclares limit)
  rw [screen_of_ok hdeclared, screenBody_eq limit hmethod, ← ite_or, ← hover]
  exact ⟨fun h => if_pos h, fun h => if_neg h⟩

/-- **The limit on bodies is exact.**  A request of a method with a body is turned away if and only
if its header is a decimal number above the limit or its body has more octets than the limit;
otherwise the body that is handed on is all of what arrived, in order.  So the answer is that of the
header and the whole body, however it is cut into chunks, and whatever a header says, no body above
the limit is handed on. -/
theorem body_limit_exact (limit : Int) (method : String)
    (hmethod : method ∈ ["POST", "PUT", "PATCH"]) (header : Option String)
    (hheader : IsReadable header) (chunks : List (List Nat)) :
    let exceeds := DeclaresOver limit header ∨ limit < chunks.flatten.length
    (screen limit method header chunks = .tooLarge ↔ exceeds)
    ∧ (¬ exceeds → screen limit method header chunks = .passed chunks.flatten)
    ∧ (∀ (settings : Settings) (path : String), settings.maxBodyBytes = limit →
      ((respond settings ⟨method, path, header, chunks⟩).status = 413 ↔ exceeds)
      ∧ (¬ exceeds → respond settings ⟨method, path, header, chunks⟩
        = route settings method path chunks.flatten))
    ∧ (∀ (header' : Option String) (chunks' : List (List Nat)),
      chunks'.flatten = chunks.flatten →
      screen limit method header' chunks' = screen limit method header' chunks)
    ∧ ∀ (header' : Option String) (body : List Nat),
      screen limit method header' chunks = .passed body →
      body = chunks.flatten ∧ (body.length : Int) ≤ limit := by
  intro exceeds
  have hbody : hasBody method = true := by
    simpa [hasBody, or_assoc] using hmethod
  obtain ⟨hlarge, hpassed⟩ := screen_of_isReadable limit hbody hheader chunks
  have hiff : screen limit method header chunks = .tooLarge ↔ exceeds := by
    refine ⟨fun h => ?_, hlarge⟩
    by_contra hnot
    exact nomatch h.symm.trans (hpassed hnot)
  refine ⟨hiff, hpassed, ?_, fun header' _ h => screen_congr limit method header' h,
    fun header' body => screen_passed hbody⟩
  rintro settings path rfl
  refine ⟨(respond_status_iff _ _).trans hiff, fun hnot => ?_⟩
  rw [respond, hpassed hnot]

/-- Exactly as many octets as the limit, with an empty chunk among them and zeros in front of the
declared length. -/
theorem body_limit_exact_at_limit :
    let header := some "003"
    let chunks := [[1], [], [2, 3]]
    "POST" ∈ ["POST", "PUT", "PATCH"] ∧ IsReadable header ∧ Settings.standard.maxBodyBytes = 5242880
    ∧ screen 3 "POST" header chunks = .passed [1, 2, 3]
    ∧ ((respond .standard ⟨"POST", "/parse", header, chunks⟩).status = 413
      ↔ DeclaresOver 5242880 header ∨ (5242880 : Int) < chunks.flatten.length) := by
  intro header chunks
  have hmethod : "POST" ∈ ["POST", "PUT", "PATCH"] := by decide
  have hdecimal : IsDecimal "003" := ⟨by decide, List.all_iff_forall_prop.mp (by decide)⟩
  have hheader : IsReadable header := .decimal hdecimal (by decide)
  have hnot : ¬ (DeclaresOver 3 header ∨ (3 : Int) < chunks.flatten.length) := by
    rintro (⟨text, htext, -, hover⟩ | hover)
    · obtain rfl : "003" = text := Option.some.inj htext
      exact absurd hover (by decide)
    · exact absurd hover (by decide)
  refine ⟨hmethod, hheader, rfl, ?_, ?_⟩
  · exact (body_limit_exact 3 "POST" hmethod header hheader chunks).2.1 hnot
  · exact ((body_limit_exact 5242880 "POST" hmethod header hheader chunks).2.2.1 .standard "/parse"
      rfl).1

/-! ### headers that cannot be read -/

/-- The digits among the first characters that have no decimal value. -/
def superscripts : List Char := ['²', '³', '¹']

theorem decimalValue?_latin {c : Char} (hc : c.toNat < 0x100) :
    (Text.decimalValue? c).isSome = c.isDigit := by
  rw [Text.decimalValue?]
  split
  next hdigit =>
    rw [hdigit]
    rfl
  next hdigit =>
    rw [Bool.eq_false_iff.mpr hdigit]
    split
    · rfl
    next hhigh =>
      have hzeros : ∀ z ∈ Text.decimalZeros, z = 0x30 ∨ 0x660 ≤ z := by decide
      have hnone : Text.decimalZeros.find? (fun z => z ≤ c.toNat && c.toNat < z + 10) = none := by
        refine List.find?_eq_none.mpr fun z hz => ?_
        have := hzeros z hz
        simp only [Bool.and_eq_true, decide_eq_true_eq]
        omega
      rw [hnone]
      rfl

theorem isDigit_latin {c : Char} (hc : c.toNat < 0x100) :
    Text.isDigit c = true ↔ c.isDigit = true ∨ c ∈ superscripts := by
  have hcode : ∀ d : Char, c.toNat = d.toNat ↔ c = d := fun d => ⟨Char.toNat_inj.mp, congrArg _⟩
  have hcodes : '²'.toNat = 0xb2 ∧ '³'.toNat = 0xb3 ∧ '¹'.toNat = 0xb9 := by decide
  have hother : Text.inIntervals Text.otherDigits c.toNat = true ↔ c ∈ superscripts := by
    simp only [superscripts, List.mem_cons, List.not_mem_nil, or_false, ← hcode, hcodes]
    simp only [Text.inIntervals, Text.otherDigits, List.any_cons, List.any_nil, Bool.or_eq_true,
      Bool.and_eq_true, decide_eq_true_eq, Bool.false_eq_true, or_false]
    omega
  rw [Text.isDigit, decimalValue?_latin hc, Bool.or_eq_true, hother]

theorem isUnreadable_latin {text : String} (h : ∀ c ∈ text.toList, c.toNat < 0x100) :
    IsUnreadable text ↔ text ≠ "" ∧ (∀ c ∈ text.toList, c.isDigit = true ∨ c ∈ superscripts)
      ∧ ((∃ c ∈ text.toList, c ∈ superscripts) ∨ Numeral.digitLimit < text.length) := by
  have hdigits : IsDigits text
      ↔ text ≠ "" ∧ ∀ c ∈ text.toList, c.isDigit = true ∨ c ∈ superscripts :=
    and_congr_right fun _ => forall₂_congr fun c hc => isDigit_latin (h c hc)
  have hvalue : ∀ c ∈ text.toList, c.isDigit = true ∨ c ∈ superscripts →
      (Text.decimalValue? c = none ↔ c ∈ superscripts) := by
    intro c hc hcases
    have hapart : ∀ d ∈ superscripts, d.isDigit = false := List.all_iff_forall_prop.mp (by decide)
    rw [← Option.not_isSome_iff_eq_none, decimalValue?_latin (h c hc)]
    constructor
    · exact hcases.resolve_left
    · intro hsuper
      rw [hapart c hsuper]
      decide
  rw [IsUnreadable, hdigits, and_assoc]
  refine and_congr_right fun _ => and_congr_right fun hall => or_congr_left ?_
  exact exists_congr fun c => and_congr_right fun hc => hvalue c hc (hall c hc)

/-- **Which headers end in a fault.**  Whatever the method and the body, a request meets a fault if
and only if its header consists of digits, but one of them has no decimal value or there are more
than can be read; otherwise the request is turned away or let through with its whole body.  Of the
characters that a header can hold, the digits without a value are the three superscripts. -/
theorem length_header_faults_iff (limit : Int) (method : String) (header : Option String)
    (chunks : List (List Nat)) :
    ((∃ e, screen limit method header chunks = .fault e)
      ↔ ∃ text, header = some text ∧ IsUnreadable text)
    ∧ ((¬ ∃ text, header = some text ∧ IsUnreadable text)
      ↔ screen limit method header chunks = .tooLarge
        ∨ screen limit method header chunks = .passed chunks.flatten)
    ∧ ∀ text : String, (∀ c ∈ text.toList, c.toNat < 0x100) →
      (IsUnreadable text
        ↔ text ≠ "" ∧ (∀ c ∈ text.toList, c.isDigit = true ∨ c ∈ superscripts)
          ∧ ((∃ c ∈ text.toList, c ∈ superscripts) ∨ Numeral.digitLimit < text.length)) := by
  rw [← declaredLength_error_iff]
  obtain ⟨e, herror, hfault⟩ | ⟨declared, hdeclared, hscreen⟩ :=
    screen_cases limit method header chunks
  · refine ⟨iff_of_true ⟨e, hfault⟩ ⟨e, herror⟩, iff_of_false (fun h => h ⟨e, herror⟩) ?_,
      fun text => isUnreadable_latin⟩
    rw [hfault]
    rintro (h | h) <;> cases h
  · have hread : ¬ ∃ e, declaredLength header = .error e := by
      rw [hdeclared]
      rintro ⟨e, ⟨⟩⟩
    have hanswer : screen limit method header chunks = .tooLarge
        ∨ screen limit method header chunks = .passed chunks.flatten :=
      hscreen.imp_right And.left
    refine ⟨iff_of_false ?_ hread, iff_of_true hread hanswer, fun text => isUnreadable_latin⟩
    rintro ⟨e, hfault⟩
    rw [hfault] at hanswer
    rcases hanswer with h | h <;> cases h

/-- A header with a letter is not looked at, one with a superscript is and cannot be read. -/
theorem length_header_faults_iff_letter :
    (∀ c ∈ "1²".toList, c.toNat < 0x100) ∧ IsUnreadable "1²"
    ∧ (∃ e, screen 3 "GET" (some "1²") [] = .fault e)
    ∧ (screen 3 "GET" (some "1x") [[1]] = .tooLarge
      ∨ screen 3 "GET" (some "1x") [[1]] = .passed [1]) := by
  have hlatin : ∀ c ∈ "1²".toList, c.toNat < 0x100 := List.all_iff_forall_prop.mp (by decide)
  have hunreadable : IsUnreadable "1²" := by
    refine ((length_header_faults_iff 3 "GET" (some "1²") []).2.2 "1²" hlatin).mpr
      ⟨by decide, List.all_iff_forall_prop.mp (by decide), .inl ⟨'²', by decide, by decide⟩⟩
  refine ⟨hlatin, hunreadable, ?_, ?_⟩
  · exact (length_header_faults_iff 3 "GET" (some "1²") []).1.mpr ⟨_, rfl, hunreadable⟩
  · refine (length_header_faults_iff 3 "GET" (some "1x") [[1]]).2.1.mp ?_
    rintro ⟨text, htext, ⟨-, hdigits⟩, -⟩
    obtain rfl : "1x" = text := Option.some.inj htext
    exact absurd (hdigits 'x' (by decide)) (by decide)

/-- A decimal number of nines. -/
def nines (count : Nat) : String := String.ofList (List.replicate count '9')

theorem length_nines (count : Nat) : (nines count).length = count := by
  rw [nines, String.length_ofList, List.length_replicate]

theorem isDecimal_nines {count : Nat} (h : count ≠ 0) : IsDecimal (nines count) := by
  refine ⟨fun hempty => h ?_, fun c hc => ?_⟩
  · rw [← length_nines count, hempty]
    rfl
  · rw [nines, String.toList_ofList] at hc
    rw [List.eq_of_mem_replicate hc]
    decide

/-- A length of one digit more than can be read, which is above the limit, makes handling a request
fail, and so does a superscript. -/
theorem long_length_breaks_request :
    IsDecimal (nines 4301)
    ∧ screen Settings.standard.maxBodyBytes "GET" (some (nines 4301)) [[]] = .fault (.tooLong 4301)
    ∧ respond .standard ⟨"GET", "/health", some (nines 4301), [[]]⟩ = broken ∧ broken.status = 500
    ∧ screen Settings.standard.maxBodyBytes "GET" (some "²") [[]] = .fault (.invalid 10 "²") := by
  have hdecimal : IsDecimal (nines 4301) := isDecimal_nines (by decide)
  have hfault : declaredLength (some (nines 4301)) = .error (.tooLong 4301) := by
    rw [declaredLength_of_isDecimal hdecimal, length_nines, if_pos (by decide)]
  exact ⟨hdecimal, screen_of_error hfault _ _ _, respond_of_error _ ⟨_, _, _, _⟩ hfault, rfl,
    by decide⟩

end Http

end YamlSpan
