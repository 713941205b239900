import YamlSpan.Diagnostic
import YamlSpan.Token.Anchor
import YamlSpan.Token.Block
import YamlSpan.Token.Directive
import YamlSpan.Token.Plain
import YamlSpan.Token.Quoted

/-!
# Readers of characters

A reader starts at a cursor.  It stops for a reason that lies in the text, or it goes on at a cursor
further behind.  A reason in the text is a failure, or a fault that takes a percent sign or a
backslash.

* `Fault.signs`   the characters that lead to a fault
* `Halt.IsOf`     the reasons to stop that a text may give
* `Reads`         a reader stops for such a reason, or what it gives has a property

For each reader there is one lemma, which says how far it goes; the ones behind it do not look into
the reader again.
-/

namespace YamlSpan

/-! ### reasons to stop -/

/-- The characters one of which is in a text that leads to the fault.  No text leads to the faults
of an assembly. -/
def Fault.signs : Fault → List Char
  | .outsideDocument => []
  | .nothingOpen => []
  | .unsupportedVersion .. => ['%']
  | .numeral _ => ['%']
  | .notCharacter => ['%', '\\']
  | .beyondMachineInteger => ['\\']

/-- The reasons to stop that a text may give. -/
def Halt.IsOf (text : List Char) : Halt → Prop
  | .failure f => f.reason ≠ duplicateKey
  | .fault f => ∃ sign ∈ f.signs, sign ∈ text

theorem apart_append {a b key : String} (h : ¬ a.toList <+: key.toList) :
    ¬ (a ++ b).toList <+: key.toList := by
  rw [String.toList_append]
  exact fun hprefix => h ((List.prefix_append _ _).trans hprefix)

/-- No message of a defect begins the report about a repeated key, or is it. -/
theorem Problem.message_apart (p : Problem) : ¬ p.message.toList <+: duplicateKey.toList := by
  cases p with
  | missingColon | entryNotAllowed | keyNotAllowed | valueNotAllowed | zeroIndentation
  | deeperFirstLine | unclosedQuote | separatorInQuote | repeatedVersion | incompatibleVersion =>
    decide +kernel
  | noWord | noDigit | noDigitOrPoint | noSpace | noLineEnd | noTagEnd | noHandle | noHandleEnd
  | noUri | noUriEscape | noBlockIndicator | unknownEscape | repeatedHandle | undefinedHandle
  | noContent | noBlockEnd | noItemSeparator | noPairSeparator =>
    exact apart_append (by decide +kernel)
  | noToken | noDocumentStart | contentAfterDocumentEnd =>
    exact apart_append (apart_append (by decide +kernel))
  | badUriOctets | noEscapeDigits =>
    exact apart_append (apart_append (apart_append (by decide +kernel)))

theorem nonempty_message (p : Problem) : Failure.nonempty (some p.message) = some p.message := by
  have hne : p.message ≠ "" := by
    intro h
    apply p.message_apart
    rw [h]
    exact List.nil_prefix
  rw [Failure.nonempty, Option.filter_some, if_pos (by simpa using hne)]

theorem Problem.message_ne (p : Problem) : p.message ≠ duplicateKey := by
  intro h
  exact p.message_apart (h ▸ List.prefix_rfl)

theorem Problem.halt_isOf (text : List Char) (p : Problem) (m : Mark) : (p.halt m).IsOf text := by
  show Failure.reason _ ≠ duplicateKey
  rw [Failure.ofProblem, Failure.reason, nonempty_message, Option.some_or, Option.getD_some]
  exact p.message_ne

theorem deeperFirstLine_isOf (text : List Char) (m : Mark) : (deeperFirstLine m).IsOf text := by
  show Failure.reason _ ≠ duplicateKey
  rw [Failure.reason, nonempty_message]
  exact Problem.deeperFirstLine.message_ne

/-! ### readers -/

section
variable {α β : Type} {text : List Char}

/-- A reader stops for a reason that the text may give, or gives something with a property. -/
def Reads (text : List Char) (P : α → Prop) : Except Halt α → Prop
  | .ok a => P a
  | .error h => h.IsOf text

theorem Reads.bind {P : α → Prop} {Q : β → Prop} {x : Except Halt α} {f : α → Except Halt β}
    (hx : Reads text P x) (hf : ∀ a, P a → Reads text Q (f a)) : Reads text Q (x >>= f) := by
  cases x with
  | error h => exact hx
  | ok a => exact hf a hx

theorem Reads.mono {P Q : α → Prop} {x : Except Halt α} (hx : Reads text P x)
    (h : ∀ a, P a → Q a) : Reads text Q x := by
  cases x with
  | error halt => exact hx
  | ok a => exact h a hx

theorem Reads.ite {P : α → Prop} {c : Prop} [Decidable c] {x y : Except Halt α}
    (hx : c → Reads text P x) (hy : ¬ c → Reads text P y) : Reads text P (if c then x else y) := by
  split
  · exact hx ‹_›
  · exact hy ‹_›

theorem Reads.map {P : α → Prop} {x : Except Halt α} (hx : Reads text P x) (f : α → β) :
    Reads text (fun b => ∃ a, P a ∧ f a = b) (f <$> x) := by
  cases x with
  | error h => exact hx
  | ok a => exact ⟨a, hx, rfl⟩

theorem Reads.fail (P : α → Prop) (c : Cursor) (p : Problem) : Reads text P (c.fail p) :=
  p.halt_isOf text c.mark

theorem Reads.refuse (P : α → Prop) (c : Cursor) (p : Char → Problem) :
    Reads text P (c.refuse p) :=
  Reads.fail P c _

/-- A reader that goes on somewhere in the given rest of a text. -/
def ReadsIn (text rest : List Char) : Except Halt (α × Cursor) → Prop :=
  Reads text fun r => r.2.rest <:+ rest

end

/-! ### cursors -/

namespace Cursor

theorem advance_rest (c : Cursor) : c.advance.rest = c.rest.tail := by
  obtain ⟨rest, mark⟩ := c
  cases rest <;> rfl

theorem forward_rest (count : Nat) (c : Cursor) : (c.forward count).rest = c.rest.drop count := by
  induction count generalizing c with
  | zero => rfl
  | succ count ih => rw [forward, ih, advance_rest, List.drop_tail]

theorem skipWhile_rest (p : Char → Bool) (c : Cursor) :
    (c.skipWhile p).rest = c.rest.dropWhile p := by
  obtain ⟨rest, mark⟩ := c
  show (skipFrom p rest mark).rest = rest.dropWhile p
  induction rest generalizing mark with
  | nil => rfl
  | cons ch rest ih =>
    rw [skipFrom, List.dropWhile_cons]
    split
    · exact ih _
    · rfl

theorem advance_suffix (c : Cursor) : c.advance.rest <:+ c.rest := by
  rw [advance_rest]
  exact List.tail_suffix _

theorem forward_suffix (count : Nat) (c : Cursor) : (c.forward count).rest <:+ c.rest := by
  rw [forward_rest]
  exact List.drop_suffix _ _

/-- Moving over at least one character leaves the first one behind. -/
theorem forward_suffix_tail {count : Nat} (h : 0 < count) (c : Cursor) :
    (c.forward count).rest <:+ c.rest.tail := by
  cases count with
  | zero => cases h
  | succ count =>
    rw [forward, ← advance_rest]
    exact forward_suffix _ _

theorem skipWhile_suffix (p : Char → Bool) (c : Cursor) : (c.skipWhile p).rest <:+ c.rest := by
  rw [skipWhile_rest]
  exact List.dropWhile_suffix p

theorem lineBreak_suffix (c : Cursor) : c.lineBreak.2.rest <:+ c.rest := by
  unfold lineBreak
  split
  · exact forward_suffix _ _
  · split
    · exact advance_suffix _
    · split
      · exact advance_suffix _
      · exact List.suffix_rfl
  · exact List.suffix_rfl

theorem skipComment_suffix (c : Cursor) : c.skipComment.rest <:+ c.rest := by
  unfold skipComment
  split
  · exact skipWhile_suffix _ _
  · exact List.suffix_rfl

theorem skipGapWithin_suffix (blank : Char → Bool) (fuel : Nat) (crossed : Bool) (c : Cursor) :
    (skipGapWithin blank fuel crossed c).1.rest <:+ c.rest := by
  induction fuel generalizing crossed c with
  | zero => exact List.suffix_rfl
  | succ fuel ih =>
    have hskip := (skipComment_suffix (c.skipWhile blank)).trans (skipWhile_suffix blank c)
    have hbreak := (lineBreak_suffix (c.skipWhile blank).skipComment).trans hskip
    rw [skipGapWithin]
    split
    · exact hskip
    · rename_i heq
      rw [heq] at hbreak
      exact (ih _ _).trans hbreak

theorem skipGap_suffix (inFlow : Bool) (c : Cursor) : (c.skipGap inFlow).1.rest <:+ c.rest := by
  unfold skipGap
  refine (skipGapWithin_suffix ..).trans ?_
  split
  · exact advance_suffix c
  · exact List.suffix_rfl

/-- A character ahead is in the text, unless it stands for the end. -/
theorem mem_of_peek {c : Cursor} {k : Nat} {ch : Char} (h : c.peek k = ch) (hne : ch ≠ finis) :
    ch ∈ c.rest := by
  unfold peek at h
  rw [List.getD_eq_getElem?_getD] at h
  cases hget : c.rest[k]? with
  | none =>
    rw [hget] at h
    exact absurd h.symm hne
  | some found =>
    rw [hget] at h
    obtain rfl : found = ch := h
    exact List.mem_of_getElem? hget

theorem endLine_reads (text : List Char) (c : Cursor) :
    Reads text (fun c' => c'.rest <:+ c.rest) c.endLine := by
  have hskip := (skipComment_suffix (c.skipWhile isSpace)).trans (skipWhile_suffix isSpace c)
  unfold endLine
  simp only
  split
  · exact (lineBreak_suffix _).trans hskip
  · exact Reads.refuse _ _ _

end Cursor

open Cursor

section
variable {text : List Char}

/-! ### names, tags and directives -/

theorem readName_reads (c : Cursor) : ReadsIn text c.rest.tail (readName c) := by
  unfold readName
  simp only
  split
  · exact Reads.refuse _ _ _
  · split
    · show (forward _ c.advance).rest <:+ _
      rw [← advance_rest]
      exact forward_suffix _ _
    · exact Reads.refuse _ _ _

theorem readOctets_reads (fuel : Nat) (c : Cursor) : ReadsIn text c.rest (readOctets fuel c) := by
  induction fuel generalizing c with
  | zero => exact List.suffix_rfl
  | succ fuel ih =>
    unfold readOctets
    split
    · exact List.suffix_rfl
    · simp only
      split
      · exact Reads.fail _ _ _
      · split
        · exact Reads.fail _ _ _
        · refine Reads.bind (ih _) ?_
          rintro ⟨octets, rest⟩ hrest
          exact hrest.trans ((forward_suffix _ _).trans (advance_suffix _))

theorem readEscapes_reads (c : Cursor) : ReadsIn text c.rest (readEscapes c) := by
  unfold readEscapes
  refine Reads.bind (readOctets_reads _ c) ?_
  rintro ⟨octets, rest⟩ hrest
  simp only
  split
  · exact hrest
  · exact Reads.fail _ _ _

/-- What is read of a tag goes on in the given rest, and has a percent sign only if the text has
one. -/
def ReadsUri (text rest : List Char) : Except Halt (List Char × Cursor) → Prop :=
  Reads text fun r => r.2.rest <:+ rest ∧ ('%' ∈ r.1 → '%' ∈ text)

theorem readUriChars_reads (v : Version) (fuel : Nat) (c : Cursor) (hc : c.rest <:+ text) :
    ReadsUri text c.rest (readUriChars v fuel c) := by
  induction fuel generalizing c with
  | zero => exact ⟨List.suffix_rfl, nofun⟩
  | succ fuel ih =>
    unfold readUriChars
    split
    · rename_i hpercent
      have hmem : '%' ∈ text :=
        hc.subset (mem_of_peek (by simpa using hpercent) (by decide))
      refine Reads.bind (readEscapes_reads c) ?_
      rintro ⟨chars, c1⟩ h1
      refine Reads.bind (ih c1 (h1.trans hc)) ?_
      rintro ⟨more, c2⟩ h2
      exact ⟨h2.1.trans h1, fun _ => hmem⟩
    · rename_i hpercent
      split
      · refine Reads.bind (ih c.advance ((advance_suffix c).trans hc)) ?_
        rintro ⟨more, rest⟩ hrest
        refine ⟨hrest.1.trans (advance_suffix c), fun hmem => ?_⟩
        rcases List.mem_cons.mp hmem with heq | hmem
        · exact absurd (by simp [← heq]) hpercent
        · exact hrest.2 hmem
      · exact ⟨List.suffix_rfl, nofun⟩

theorem readUri_reads (v : Version) (c : Cursor) (hc : c.rest <:+ text) :
    Reads text (fun r => r.2.rest <:+ c.rest ∧ ('%' ∈ r.1.toList → '%' ∈ text)) (readUri v c) := by
  unfold readUri
  split
  · refine Reads.bind (readUriChars_reads v _ c hc) ?_
    rintro ⟨chars, c1⟩ h1
    refine ⟨h1.1, ?_⟩
    rw [String.toList_ofList]
    exact h1.2
  · exact Reads.refuse _ _ _

theorem readHandle_reads (c : Cursor) : ReadsIn text c.rest.tail (readHandle c) := by
  unfold readHandle
  split
  · exact Reads.refuse _ _ _
  · simp only
    split
    · exact forward_suffix_tail Nat.one_pos c
    · split
      · refine (advance_suffix _).trans ?_
        rw [← advance_rest]
        exact forward_suffix _ _
      · exact Reads.refuse _ _ _

/-- A token that the text may have: percent signs in tags, and directives, come from one in the
text. -/
def TokenKind.IsOf (text : List Char) : TokenKind → Prop
  | .directive _ => '%' ∈ text
  | .tag _ suffix => '%' ∈ suffix.toList → '%' ∈ text
  | _ => True

/-- A reader of a token that goes on somewhere in the given rest of a text. -/
def ReadsToken (text rest : List Char) : Except Halt (TokenKind × Cursor) → Prop :=
  Reads text fun r => r.2.rest <:+ rest ∧ r.1.IsOf text

theorem readTagParts_reads (v : Version) (c : Cursor) (hc : c.rest <:+ text) :
    ReadsToken text c.rest.tail (readTagParts v c) := by
  -- the cursor is at the last exclamation mark in front of the suffix
  obtain ⟨short, c1, hshort, h1, hsuffix⟩ : ∃ short c1,
      (if c.peek 1 == '!' then ("!!", c.advance) else ("!", c)) = (short, c1)
        ∧ c1.rest.tail <:+ c.rest.tail ∧ '%' ∉ short.toList := by
    split
    · refine ⟨_, _, rfl, ?_, by decide⟩
      rw [advance_rest]
      exact List.tail_suffix _
    · exact ⟨_, _, rfl, List.suffix_rfl, by decide⟩
  have hin : c1.rest.tail <:+ text := h1.trans ((List.tail_suffix _).trans hc)
  unfold readTagParts
  rw [hshort]
  simp only
  split
  · have h2 : (c1.forward 2).rest <:+ c1.rest.tail := forward_suffix_tail (by decide) c1
    refine Reads.bind (readUri_reads v _ (h2.trans hin)) ?_
    rintro ⟨suffix, c3⟩ h3
    simp only
    split
    · exact ⟨(advance_suffix c3).trans (h3.1.trans (h2.trans h1)), h3.2⟩
    · exact Reads.refuse _ _ _
  · split
    · refine ⟨?_, fun hmem => absurd hmem hsuffix⟩
      show c1.advance.rest <:+ _
      rw [advance_rest]
      exact h1
    · have hbehind : ∀ (handle : String) (c2 : Cursor), c2.rest <:+ c1.rest.tail →
          ReadsToken text c.rest.tail
            (readUri v c2 >>= fun r => pure (.tag (some handle) r.1, r.2)) := by
        intro handle c2 h2
        refine Reads.bind (readUri_reads v c2 (h2.trans hin)) ?_
        rintro ⟨suffix, c3⟩ h3
        exact ⟨h3.1.trans (h2.trans h1), h3.2⟩
      split
      · exact Reads.bind (readHandle_reads c1) fun r hr => hbehind r.1 r.2 hr
      · exact hbehind short c1.advance (forward_suffix_tail Nat.one_pos c1)

theorem readTag_reads (v : Version) (c : Cursor) (hc : c.rest <:+ text) :
    ReadsToken text c.rest.tail (readTag v c) := by
  unfold readTag
  refine Reads.bind (readTagParts_reads v c hc) ?_
  rintro ⟨kind, c1⟩ h1
  simp only
  split
  · exact h1
  · exact Reads.refuse _ _ _

theorem readVersionNumber_reads (c : Cursor) (h : '%' ∈ text) :
    ReadsIn text c.rest (readVersionNumber c) := by
  unfold readVersionNumber
  simp only
  split
  · exact Reads.refuse _ _ _
  · split
    · exact forward_suffix _ _
    · exact ⟨'%', List.mem_singleton.mpr rfl, h⟩

theorem readVersion_reads (c : Cursor) (h : '%' ∈ text) :
    ReadsIn text c.rest (readVersion c) := by
  unfold readVersion
  refine Reads.bind (readVersionNumber_reads _ h) ?_
  rintro ⟨major, c1⟩ h1
  have h1 := h1.trans (skipWhile_suffix isSpace c)
  simp only
  split
  · exact Reads.refuse _ _ _
  · refine Reads.bind (readVersionNumber_reads _ h) ?_
    rintro ⟨minor, c2⟩ h2
    have h2 := h2.trans ((advance_suffix c1).trans h1)
    simp only
    split
    · exact h2
    · exact Reads.refuse _ _ _

theorem readHandleDirective_reads (v : Version) (c : Cursor) (hc : c.rest <:+ text) :
    ReadsIn text c.rest (readHandleDirective v c) := by
  unfold readHandleDirective
  refine Reads.bind (readHandle_reads _) ?_
  rintro ⟨handle, c1⟩ h1
  have h1 := h1.trans ((List.tail_suffix _).trans (skipWhile_suffix isSpace c))
  simp only
  split
  · exact Reads.refuse _ _ _
  · have h2 := (skipWhile_suffix isSpace c1).trans h1
    refine Reads.bind (readUri_reads v _ (h2.trans hc)) ?_
    rintro ⟨expansion, c3⟩ h3
    simp only
    split
    · exact h3.1.trans h2
    · exact Reads.refuse _ _ _

theorem readDirective_reads (v : Version) (c : Cursor) (hc : c.rest <:+ text) (h : '%' ∈ text) :
    ReadsIn text c.rest.tail (readDirective v c) := by
  have hparts : ReadsIn text c.advance.rest (readDirectiveParts v c.advance) := by
    unfold readDirectiveParts
    simp only
    split
    · exact Reads.refuse _ _ _
    · split
      · exact Reads.refuse _ _ _
      · have hname := forward_suffix (c.advance.run isDirectiveChar).length c.advance
        split
        · refine Reads.bind (readVersion_reads _ h) ?_
          rintro ⟨version, c2⟩ h2
          exact h2.trans hname
        · split
          · have hin := hname.trans ((advance_suffix c).trans hc)
            exact (readHandleDirective_reads v _ hin).mono fun r hr => hr.trans hname
          · exact (skipWhile_suffix _ _).trans hname
  unfold readDirective
  refine Reads.bind hparts ?_
  rintro ⟨directive, c1⟩ h1
  refine Reads.bind (endLine_reads text c1) ?_
  intro c2 h2
  rw [← advance_rest]
  exact h2.trans h1

/-! ### block scalars -/

theorem readChomping_suffix (c : Cursor) : (readChomping c).2.rest <:+ c.rest := by
  unfold readChomping
  split
  · exact advance_suffix c
  · exact List.suffix_rfl

theorem readIncrement_reads (c : Cursor) : ReadsIn text c.rest (readIncrement c) := by
  unfold readIncrement
  split
  · split
    · exact Reads.fail _ _ _
    · exact advance_suffix c
  · exact List.suffix_rfl

theorem readBlockHeader_reads (c : Cursor) : ReadsIn text c.rest (readBlockHeader c) := by
  unfold readBlockHeader
  have h0 := readChomping_suffix c
  generalize readChomping c = before at h0
  obtain ⟨before, c0⟩ := before
  refine Reads.bind (readIncrement_reads c0) ?_
  rintro ⟨increment, c1⟩ h1
  have hend : ∀ (after : Option Chomping) (c2 : Cursor), c2.rest <:+ c1.rest →
      ReadsIn text c.rest (if isStopOrSpace (c2.peek 0) then
        pure (BlockHeader.mk ((before.or after).getD .clip) increment, c2)
        else c2.refuse .noBlockIndicator) := by
    intro after c2 h2
    split
    · exact h2.trans (h1.trans h0)
    · exact Reads.refuse _ _ _
  simp only
  split
  · exact hend _ _ (readChomping_suffix c1)
  · exact hend none c1 List.suffix_rfl

theorem skipSpacesTo_suffix (column : Int) (fuel : Nat) (c : Cursor) :
    (skipSpacesTo column fuel c).rest <:+ c.rest := by
  induction fuel generalizing c with
  | zero => exact List.suffix_rfl
  | succ fuel ih =>
    unfold skipSpacesTo
    split
    · exact (ih _).trans (advance_suffix c)
    · exact List.suffix_rfl

theorem readLeadFrom_suffix (indent : Int) (fuel : Nat) (stop : Mark) (c : Cursor) :
    (readLeadFrom indent fuel stop c).cursor.rest <:+ c.rest := by
  induction fuel generalizing stop c with
  | zero => exact List.suffix_rfl
  | succ fuel ih =>
    have hspaces := skipSpacesTo_suffix indent c.steps c
    have hbreak := (lineBreak_suffix (skipSpacesTo indent c.steps c)).trans hspaces
    rw [readLeadFrom]
    split
    · exact hspaces
    · rename_i heq
      rw [heq] at hbreak
      exact (ih _ _).trans hbreak

theorem readLead_suffix (indent : Int) (c : Cursor) : (readLead indent c).cursor.rest <:+ c.rest :=
  readLeadFrom_suffix indent c.steps c.mark c

theorem readLeadingFrom_suffix (fuel : Nat) (stop : Mark) (first : Option Nat) (deepest : Nat)
    (c : Cursor) : (readLeadingFrom fuel stop first deepest c).lead.cursor.rest <:+ c.rest := by
  induction fuel generalizing stop first deepest c with
  | zero => exact List.suffix_rfl
  | succ fuel ih =>
    have hbreak := lineBreak_suffix c
    unfold readLeadingFrom
    split
    · exact (ih _ _ _ _).trans (advance_suffix c)
    · split
      · exact List.suffix_rfl
      · rename_i heq
        rw [heq] at hbreak
        exact (ih _ _ _ _).trans hbreak

theorem readIndentation_reads (least : Int) (c : Cursor) :
    Reads text (fun r => r.2.cursor.rest <:+ c.rest) (readIndentation least c) := by
  have hlead := readLeadingFrom_suffix c.steps c.mark none 0 c
  unfold readIndentation
  simp only
  split
  · split
    · exact deeperFirstLine_isOf text _
    · exact hlead
  · exact hlead

theorem readBlockLines_suffix (folded : Bool) (least indent : Int) (fuel : Nat) (b : BlockBody) :
    (readBlockLines folded least indent fuel b).lead.cursor.rest <:+ b.lead.cursor.rest := by
  induction fuel generalizing b with
  | zero => exact List.suffix_rfl
  | succ fuel ih =>
    unfold readBlockLines
    simp only
    split
    · exact List.suffix_rfl
    · have hnext := (readLead_suffix indent _).trans
        ((lineBreak_suffix (b.lead.cursor.forward
          (b.lead.cursor.run fun ch => !isLineStop ch).length)).trans (forward_suffix _ _))
      split
      · exact hnext
      · exact (ih _).trans hnext

theorem readBlockScalar_reads (indent : Int) (c : Cursor) :
    Reads text (fun r => r.2.2.rest <:+ c.rest.tail) (readBlockScalar indent c) := by
  unfold readBlockScalar
  refine Reads.bind (readBlockHeader_reads c.advance) ?_
  rintro ⟨header, c1⟩ h1
  refine Reads.bind (endLine_reads text c1) ?_
  intro c2 h2
  have h2 : c2.rest <:+ c.rest.tail := by
    rw [← advance_rest]
    exact h2.trans h1
  have hbehind : ∀ (least indentation : Int) (lead : Lead), lead.cursor.rest <:+ c2.rest →
      let body := readBlockLines (c.peek 0 == '>') least indentation c2.steps ⟨[], [], lead⟩
      (if header.chomping = .keep || body.lead.breaks.isEmpty then body.lead.cursor
        else (body.lead.cursor.skipGap false).1).rest <:+ c.rest.tail := by
    intro least indentation lead hlead body
    have hbody : body.lead.cursor.rest <:+ c.rest.tail :=
      (readBlockLines_suffix ..).trans (hlead.trans h2)
    split
    · exact hbody
    · exact (skipGap_suffix _ _).trans hbody
  simp only
  split
  · exact hbehind _ _ _ (readLead_suffix _ _)
  · refine Reads.bind (readIndentation_reads _ c2) ?_
    rintro ⟨indentation, lead⟩ hlead
    exact hbehind _ _ _ hlead

/-! ### plain scalars -/

theorem readPlainBreaks_suffix (fuel : Nat) (c : Cursor) :
    (readPlainBreaks fuel c).2.rest <:+ c.rest := by
  induction fuel generalizing c with
  | zero => exact List.suffix_rfl
  | succ fuel ih =>
    have hbreak := lineBreak_suffix c
    unfold readPlainBreaks
    split
    · exact (ih _).trans (advance_suffix c)
    · split
      · exact List.suffix_rfl
      · rename_i heq
        rw [heq] at hbreak
        split
        · exact hbreak
        · exact (ih _).trans hbreak

theorem readPlainGap_suffix (c : Cursor) : (readPlainGap c).cursor.rest <:+ c.rest := by
  have hspaces := forward_suffix (c.run isSpace).length c
  have hbreak := (lineBreak_suffix (c.forward (c.run isSpace).length)).trans hspaces
  rw [readPlainGap]
  simp only
  split
  · exact hspaces
  · rename_i heq
    rw [heq] at hbreak
    split
    · exact hbreak
    · exact (readPlainBreaks_suffix _ _).trans hbreak

theorem readPlainWords_suffix (v : Version) (inFlow : Bool) (indent : Int) (fuel : Nat)
    (gap : List Char) (s : PlainScalar) :
    (readPlainWords v inFlow indent fuel gap s).cursor.rest <:+ s.cursor.rest := by
  induction fuel generalizing gap s with
  | zero => exact List.suffix_rfl
  | succ fuel ih =>
    rw [readPlainWords]
    split
    · exact List.suffix_rfl
    · simp only
      split
      · exact List.suffix_rfl
      · have hgap := (readPlainGap_suffix _).trans
          (forward_suffix (plainWord v inFlow s.cursor.rest).length s.cursor)
        split
        · exact hgap
        · exact (ih _ _).trans hgap

/-- A plain scalar that has a first word goes on behind the first character of it. -/
theorem readPlain_suffix {v : Version} {inFlow : Bool} (indent : Int) {c : Cursor}
    (hword : plainWord v inFlow c.rest ≠ []) (hcomment : c.peek 0 ≠ '#') :
    (readPlain v inFlow indent c).cursor.rest <:+ c.rest.tail := by
  rw [readPlain, steps, readPlainWords, if_neg (by simpa using hcomment)]
  simp only
  rw [if_neg (by simpa using hword)]
  have hgap := (readPlainGap_suffix _).trans
    (forward_suffix_tail (List.length_pos_iff.mpr hword) c)
  split
  · exact hgap
  · exact (readPlainWords_suffix ..).trans hgap

/-! ### quoted scalars -/

theorem readQuotedBreaks_reads (fuel : Nat) (c : Cursor) :
    ReadsIn text c.rest (readQuotedBreaks fuel c) := by
  induction fuel generalizing c with
  | zero => exact List.suffix_rfl
  | succ fuel ih =>
    have hblanks := skipWhile_suffix isSpaceOrTab c
    have hbreak := (lineBreak_suffix (c.skipWhile isSpaceOrTab)).trans hblanks
    unfold readQuotedBreaks
    split
    · exact Reads.fail _ _ _
    · simp only
      split
      · exact hblanks
      · rename_i heq
        rw [heq] at hbreak
        refine Reads.bind (ih _) ?_
        rintro ⟨more, c2⟩ h2
        exact h2.trans hbreak

theorem codePointOf_reads (code : Nat) (h : '\\' ∈ text) :
    Reads text (fun _ => True) (codePointOf code) := by
  unfold codePointOf
  split
  · exact ⟨'\\', by decide, h⟩
  · split
    · exact ⟨'\\', by decide, h⟩
    · trivial

theorem readEscape_reads (c : Cursor) (h : '\\' ∈ text) :
    ReadsIn text c.rest (readEscape c) := by
  unfold readEscape
  simp only
  split
  · exact advance_suffix c
  · split
    · exact Reads.fail _ _ _
    · refine Reads.bind (codePointOf_reads _ h) ?_
      intro meaning _
      exact (forward_suffix _ _).trans (advance_suffix c)
  · split
    · refine Reads.bind (readQuotedBreaks_reads _ _) ?_
      rintro ⟨breaks, c2⟩ h2
      exact h2.trans (lineBreak_suffix c)
    · exact Reads.refuse _ _ _

theorem readQuotedWord_reads (quote : Char) (fuel : Nat) (c : Cursor) (hc : c.rest <:+ text) :
    ReadsIn text c.rest (readQuotedWord quote fuel c) := by
  induction fuel generalizing c with
  | zero => exact List.suffix_rfl
  | succ fuel ih =>
    have hmore : ∀ (part : Text) (c1 : Cursor), c1.rest <:+ c.rest →
        ReadsIn text c.rest
          (readQuotedWord quote fuel c1 >>= fun r => pure (part ++ r.1, r.2)) := by
      intro part c1 h1
      refine Reads.bind (ih c1 (h1.trans hc)) ?_
      rintro ⟨more, c2⟩ h2
      exact h2.trans h1
    unfold readQuotedWord
    simp only
    split
    · exact hmore _ _ (advance_suffix c)
    · split
      · split
        · exact hmore _ _ (forward_suffix 2 c)
        · split
          · exact hmore _ _ (advance_suffix c)
          · exact List.suffix_rfl
      · split
        · exact hmore _ _ (advance_suffix c)
        · split
          · rename_i hslash
            have hmem : '\\' ∈ text := hc.subset (mem_of_peek (by simpa using hslash) (by decide))
            refine Reads.bind (Reads.map (readEscape_reads c.advance hmem) some) ?_
            rintro _ ⟨⟨part, c1⟩, h1, rfl⟩
            exact hmore part c1 (h1.trans (advance_suffix c))
          · exact List.suffix_rfl

theorem readQuotedGap_reads (c : Cursor) : ReadsIn text c.rest (readQuotedGap c) := by
  have hblanks := forward_suffix (c.run isSpaceOrTab).length c
  have hbreak := (lineBreak_suffix (c.forward (c.run isSpaceOrTab).length)).trans hblanks
  unfold readQuotedGap
  simp only
  split
  · exact Reads.fail _ _ _
  · split
    · exact hblanks
    · rename_i heq
      rw [heq] at hbreak
      refine Reads.bind (readQuotedBreaks_reads _ _) ?_
      rintro ⟨breaks, c2⟩ h2
      exact h2.trans hbreak

theorem readQuotedText_reads (quote : Char) (fuel : Nat) (c : Cursor) (hc : c.rest <:+ text) :
    ReadsIn text c.rest (readQuotedText quote fuel c) := by
  induction fuel generalizing c with
  | zero => exact List.suffix_rfl
  | succ fuel ih =>
    unfold readQuotedText
    refine Reads.bind (readQuotedWord_reads quote _ c hc) ?_
    rintro ⟨word, c1⟩ h1
    simp only
    split
    · exact (advance_suffix c1).trans h1
    · refine Reads.bind (readQuotedGap_reads c1) ?_
      rintro ⟨gap, c2⟩ h2
      have h2 := h2.trans h1
      refine Reads.bind (ih c2 (h2.trans hc)) ?_
      rintro ⟨more, c3⟩ h3
      exact h3.trans h2

theorem readQuoted_reads (c : Cursor) (hc : c.rest <:+ text) :
    ReadsIn text c.rest.tail (readQuoted c) := by
  rw [← advance_rest]
  exact readQuotedText_reads _ _ _ ((advance_suffix c).trans hc)

end

end YamlSpan
