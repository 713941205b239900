import YamlSpan.Proofs.ExtendedReaders

/-!
# Scalars of lines in a text that goes on

A plain scalar and a block scalar may end with the text.  In the text that goes on they end at the
same place, since a marker ends them as well.  The one exception is a block scalar that is indented
by nothing and has not come to a first line of its own: it does not look for markers yet.

* `readPlain_extend`         plain scalars
* `readIndentation_extend`   the indentation of a block scalar is found in its leading lines
* `isBareBlock`              the block scalars that take in what follows
* `readBlockScalar_extend`   all others
-/

namespace YamlSpan

open Cursor

/-! ### plain scalars -/

/-- A word is inside of its line. -/
theorem plainWord_append (v : Version) (inFlow : Bool) (back : List Char) {rest : List Char}
    (hne : rest ≠ []) (hend : ∀ ch, rest.getLast? = some ch → isLineEnd (.char ch) = true) :
    plainWord v inFlow (rest ++ back) = plainWord v inFlow rest
      ∧ (plainWord v inFlow rest).length < rest.length := by
  induction rest with
  | nil => exact absurd rfl hne
  | cons ch rest ih =>
    cases rest with
    | nil =>
      have hch := hend ch rfl
      have hcolon : (ch == ':') = false := InLine.eq_false (p := (· == ':')) (by decide) hch
      have hquestion : (ch == '?') = false := InLine.eq_false (p := (· == '?')) (by decide) hch
      have hstop : isStopOrBlank ch = true := by
        simpa using InLine.eq_false (p := fun ch => !isStopOrBlank ch) (by decide) hch
      have hword : ∀ more, plainWord v inFlow (ch :: more) = [] := by
        intro more
        rw [plainWord, hcolon, hquestion, hstop]
        rfl
      rw [List.cons_append, hword, hword]
      exact ⟨rfl, Nat.one_pos⟩
    | cons next rest =>
      obtain ⟨hsame, hless⟩ := ih (List.cons_ne_nil _ _) hend
      have hhead : ((next :: rest) ++ back).headD finis = (next :: rest).headD finis := rfl
      rw [List.cons_append, plainWord, plainWord, hsame, hhead]
      refine ⟨rfl, ?_⟩
      show _ < (next :: rest).length + 1
      split
      · exact Nat.succ_lt_succ hless
      · split
        · exact Nat.succ_lt_succ hless
        · split
          · exact Nat.succ_pos _
          · exact Nat.succ_lt_succ hless

section
variable {front back : List Char} (h : Continues front back) {c : Cursor}
include h

theorem plainWord_extend (v : Version) (inFlow : Bool) (hc : c.Inside front) :
    plainWord v inFlow (c.extend back).rest = plainWord v inFlow c.rest
      ∧ (c.forward (plainWord v inFlow c.rest).length).Inside front := by
  obtain ⟨hsame, hless⟩ := plainWord_append v inFlow back hc.ne_nil fun _ => hc.within.lineEnd h
  refine ⟨hsame, hc.within.forward _, ?_⟩
  rw [forward_rest, ne_eq, List.drop_eq_nil_iff]
  omega

omit h in
theorem lineBreak_of_nil (hnil : c.rest = []) : c.lineBreak = ([], c) := by
  unfold lineBreak
  rw [hnil]

omit h in
theorem readPlainBreaks_of_nil (fuel : Nat) (hnil : c.rest = []) :
    readPlainBreaks fuel c = (some [], c) := by
  cases fuel with
  | zero => rfl
  | succ fuel =>
    rw [readPlainBreaks, peek_of_nil hnil, lineBreak_of_nil hnil]
    rfl

/-- Behind the last line of a text comes a marker, which ends a plain scalar. -/
theorem readPlainBreaks_extend {fuel fuel' : Nat} (hc : c.Inside front)
    (hfuel : c.rest.length < fuel) (hfuel' : c.rest.length < fuel') :
    readPlainBreaks fuel' (c.extend back)
        = (if (readPlainBreaks fuel c).2.rest = [] then none else (readPlainBreaks fuel c).1,
          (readPlainBreaks fuel c).2.extend back)
      ∧ (readPlainBreaks fuel c).2.Within front := by
  induction fuel generalizing fuel' c with
  | zero => omega
  | succ fuel ih =>
    obtain ⟨fuel', rfl⟩ : ∃ n, fuel' = n + 1 := ⟨fuel' - 1, by omega⟩
    have hbehind := hc.within.lineBreak
    have hshorter := @lineBreak_length c
    rw [readPlainBreaks, readPlainBreaks, hc.peek_zero, lineBreak_extend h]
    split
    · rename_i hspace
      have hless := advance_length hc.ne_nil
      rw [advance_extend h hc.ne_nil]
      exact ih (hc.advance h (p := (· == ' ')) (by decide) hspace) (by omega) (by omega)
    · generalize c.lineBreak = broken at *
      obtain ⟨text, c1⟩ := broken
      cases text with
      | nil => exact ⟨by simp only [if_neg hc.ne_nil], hc.within⟩
      | cons ch text =>
        have hless : c1.rest.length < c.rest.length := hshorter (List.cons_ne_nil _ _)
        simp only
        by_cases hnil : c1.rest = []
        · obtain ⟨hleft, hright⟩ := isSeparator_extend_of_nil h hnil
          rw [hleft, hright, readPlainBreaks_of_nil fuel hnil]
          exact ⟨by simp [hnil], hbehind⟩
        · have hinside : c1.Inside front := ⟨hbehind, hnil⟩
          rw [hinside.isSeparator h]
          split
          · exact ⟨rfl, hbehind⟩
          · obtain ⟨hmore, hwithin⟩ :=
              ih hinside (show c1.rest.length < fuel by omega)
                (show c1.rest.length < fuel' by omega)
            refine ⟨?_, hwithin⟩
            rw [hmore]
            by_cases hend : (readPlainBreaks fuel c1).2.rest = []
            · simp only [if_pos hend]
              rfl
            · simp only [if_neg hend]

/-- A gap in a text that goes on: at the end of the text, no word follows. -/
def PlainGap.extend (g : PlainGap) (back : List Char) : PlainGap :=
  ⟨if g.cursor.rest = [] then none else g.text, g.cursor.extend back, g.crossed⟩

theorem readPlainGap_extend (hc : c.Inside front) :
    readPlainGap (c.extend back) = (readPlainGap c).extend back
      ∧ (readPlainGap c).cursor.Within front := by
  have hspace : InLine isSpace := by decide
  have hc1 := hc.forward_run h hspace
  have hbehind := hc1.within.lineBreak
  rw [readPlainGap, readPlainGap]
  simp only [hc.run h hspace, forward_run_extend h, lineBreak_extend h]
  generalize (c.forward (c.run isSpace).length).lineBreak = broken at *
  obtain ⟨text, c2⟩ := broken
  cases text with
  | nil => exact ⟨by rw [PlainGap.extend, if_neg hc1.ne_nil], hc1.within⟩
  | cons ch text =>
    simp only
    by_cases hnil : c2.rest = []
    · obtain ⟨hleft, hright⟩ := isSeparator_extend_of_nil h hnil
      rw [hleft, hright, readPlainBreaks_of_nil _ hnil]
      exact ⟨by simp [PlainGap.extend, hnil], hbehind⟩
    · have hinside : c2.Inside front := ⟨hbehind, hnil⟩
      rw [hinside.isSeparator h]
      split
      · exact ⟨by rw [PlainGap.extend, if_neg hnil], hbehind⟩
      · obtain ⟨hmore, hwithin⟩ := readPlainBreaks_extend h hinside (length_lt_steps c2)
          (length_lt_steps_extend c2 back)
        refine ⟨?_, hwithin⟩
        rw [hmore, PlainGap.extend]
        by_cases hend : (readPlainBreaks c2.steps c2).2.rest = []
        · simp only [if_pos hend]
          rfl
        · simp only [if_neg hend]

def PlainScalar.extend (s : PlainScalar) (back : List Char) : PlainScalar :=
  { s with cursor := s.cursor.extend back }

omit h in
theorem readPlainWords_of_nil (v : Version) (inFlow : Bool) (indent : Int) (fuel : Nat)
    (gap : List Char) {s : PlainScalar} (hnil : s.cursor.rest = []) :
    readPlainWords v inFlow indent fuel gap s = s := by
  cases fuel with
  | zero => rfl
  | succ fuel =>
    rw [readPlainWords, peek_of_nil hnil, hnil]
    rfl

/-- The same scalar, which stops in the text. -/
structure PlainScalar.Same (front back : List Char) (s s' : PlainScalar) : Prop where
  eq : s' = s.extend back
  cursor : s.cursor.Within front
  stop : s.stop.index ≤ front.length

omit h in
theorem PlainScalar.Same.ite {p : Prop} [Decidable p] {s s' t t' : PlainScalar}
    (hs : p → PlainScalar.Same front back s t) (hs' : ¬ p → PlainScalar.Same front back s' t') :
    PlainScalar.Same front back (if p then s else s') (if p then t else t') := by
  split
  · exact hs ‹_›
  · exact hs' ‹_›

theorem readPlainWords_extend (v : Version) (inFlow : Bool) (indent : Int) {fuel fuel' : Nat}
    (gap : List Char) {s : PlainScalar} (hs : s.cursor.Inside front)
    (hstop : s.stop.index ≤ front.length) (hfuel : s.cursor.rest.length < fuel)
    (hfuel' : s.cursor.rest.length < fuel') :
    PlainScalar.Same front back (readPlainWords v inFlow indent fuel gap s)
      (readPlainWords v inFlow indent fuel' gap (s.extend back)) := by
  induction fuel generalizing fuel' gap s with
  | zero => omega
  | succ fuel ih =>
    obtain ⟨fuel', rfl⟩ : ∃ n, fuel' = n + 1 := ⟨fuel' - 1, by omega⟩
    have hstay : PlainScalar.Same front back s (s.extend back) := ⟨rfl, hs.within, hstop⟩
    obtain ⟨hword, hbehind⟩ := plainWord_extend h v inFlow hs
    obtain ⟨hgap, hafter⟩ := readPlainGap_extend h hbehind
    have hshorter := fun hpos => length_lt_of_tail hs.ne_nil ((readPlainGap_suffix _).trans
      (@forward_suffix_tail (plainWord v inFlow s.cursor.rest).length hpos s.cursor))
    rw [readPlainWords, readPlainWords]
    show PlainScalar.Same front back _ (if (s.cursor.extend back).peek 0 == '#' then _ else _)
    simp only [PlainScalar.extend, hs.peek_zero, hword, hbehind.forward_extend h, hgap]
    refine .ite (fun _ => hstay) fun _ => .ite (fun _ => hstay) fun hne => ?_
    have hless := hshorter (List.length_pos_iff.mpr (by simpa using hne))
    have hmark := hbehind.within.index_le
    generalize readPlainGap (s.cursor.forward (plainWord v inFlow s.cursor.rest).length) = g at *
    by_cases hnil : g.cursor.rest = []
    · -- the marker ends the scalar, and so does the end of the text
      have htext : (g.extend back).text = none := if_pos hnil
      rw [readPlainWords_of_nil v inFlow indent fuel _ hnil, ite_self, if_pos (by rw [htext]; rfl)]
      exact ⟨rfl, hafter, hmark⟩
    · have hinside : g.cursor.Inside front := ⟨hafter, hnil⟩
      have htext : (g.extend back).text = g.text := if_neg hnil
      have hpeek : (g.extend back).cursor.peek 0 = g.cursor.peek 0 := hinside.peek_zero
      simp only [htext, hpeek]
      refine .ite (fun _ => ⟨rfl, hafter, hmark⟩) fun _ => ?_
      exact ih _ hinside hmark (show g.cursor.rest.length < fuel by omega)
        (show g.cursor.rest.length < fuel' by omega)

theorem readPlain_extend (v : Version) (inFlow : Bool) (indent : Int) (hc : c.Inside front) :
    PlainScalar.Same front back (readPlain v inFlow indent c)
      (readPlain v inFlow indent (c.extend back)) := by
  let s : PlainScalar := ⟨[], c.mark, c, false⟩
  have hs : s.cursor.Inside front := hc
  exact readPlainWords_extend h v inFlow indent [] hs hc.within.index_le (length_lt_steps c)
    (length_lt_steps_extend c back)

end

/-! ### block scalars -/

section
variable {front back : List Char} (h : Continues front back) {c : Cursor}
include h

theorem readChomping_extend (hc : c.Inside front) :
    readChomping (c.extend back) = ((readChomping c).1, (readChomping c).2.extend back)
      ∧ (readChomping c).2.Inside front := by
  have hchomping : InLine fun ch => (Chomping.ofChar? ch).isSome := by decide
  unfold readChomping
  rw [hc.peek_zero, advance_extend h hc.ne_nil]
  split
  · rename_i heq
    exact ⟨rfl, hc.advance h hchomping (by rw [heq]; rfl)⟩
  · exact ⟨rfl, hc⟩

theorem readIncrement_extend (hc : c.Inside front) :
    Tracks (SameInside front back) (readIncrement c) (readIncrement (c.extend back)) := by
  unfold readIncrement
  rw [hc.peek_zero, advance_extend h hc.ne_nil]
  refine .ite (fun hdigit => ?_) fun _ => .ok ⟨hc, rfl⟩
  exact .ite (fun _ => Tracks.error) fun _ =>
    .ok ⟨hc.advance h (p := Char.isDigit) (by decide) hdigit, rfl⟩

theorem readBlockHeader_extend (hc : c.Inside front) :
    Tracks (SameInside front back) (readBlockHeader c) (readBlockHeader (c.extend back)) := by
  obtain ⟨hchomping, hc0⟩ := readChomping_extend h hc
  unfold readBlockHeader
  simp only [hchomping]
  generalize readChomping c = before at *
  refine .bind (readIncrement_extend h hc0) ?_
  rintro ⟨increment, c1⟩ _ ⟨hc1, rfl⟩
  obtain ⟨hafter, hc2⟩ := readChomping_extend h hc1
  have hend : ∀ (after : Option Chomping) (c2 : Cursor), c2.Inside front →
      Tracks (SameInside front back)
        (if isStopOrSpace (c2.peek 0) then
          pure (BlockHeader.mk ((before.1.or after).getD .clip) increment, c2)
          else c2.refuse .noBlockIndicator)
        (if isStopOrSpace ((c2.extend back).peek 0) then
          pure (BlockHeader.mk ((before.1.or after).getD .clip) increment, c2.extend back)
          else (c2.extend back).refuse .noBlockIndicator) := by
    intro after c2 hc2
    rw [hc2.peek_zero]
    exact .ite (fun _ => .ok ⟨hc2, rfl⟩) fun _ => Tracks.error
  simp only [hafter]
  split
  · exact hend _ _ hc2
  · exact hend none c1 hc1

omit h in
theorem hexValue_pos {ch : Char} (hdigit : ch.isDigit = true) (hne : ch ≠ '0') :
    1 ≤ Numeral.hexValue ch := by
  have hrange : 48 ≤ ch.toNat ∧ ch.toNat ≤ 57 := by
    simpa [Char.isDigit, UInt32.le_iff_toNat_le] using hdigit
  have hzero : ch.toNat ≠ 48 := by
    intro heq
    apply hne
    rw [← Char.ofNat_toNat ch, heq]
  have hdecimal : ('0'.toNat ≤ ch.toNat && ch.toNat ≤ '9'.toNat) = true := by simpa using hrange
  have hvalue : Numeral.digit? 16 ch = some (ch.toNat - 48) := by
    unfold Numeral.digit?
    simp only [hdecimal, if_true]
    exact if_pos (show ch.toNat - 48 < 16 by omega)
  rw [Numeral.hexValue, hvalue, Option.getD_some]
  omega

omit h in
/-- An indentation indicator is not zero. -/
theorem readBlockHeader_increment (text : List Char) (c : Cursor) :
    Reads text (fun r => ∀ d, r.1.increment = some d → 1 ≤ d) (readBlockHeader c) := by
  have hincrement : ∀ c, Reads text (fun r => ∀ d, r.1 = some d → 1 ≤ d) (readIncrement c) := by
    intro c
    unfold readIncrement
    refine .ite (fun hdigit => .ite (fun _ => Reads.fail _ _ _) fun hzero => ?_) fun _ => nofun
    rintro _ ⟨⟩
    exact hexValue_pos hdigit (by simpa using hzero)
  unfold readBlockHeader
  refine Reads.bind (hincrement _) ?_
  rintro ⟨increment, c1⟩ h1
  exact .ite (fun _ => h1) fun _ => Reads.refuse _ _ _

/-! ### the lines of a block scalar -/

theorem skipSpacesTo_extend (column : Int) {fuel fuel' : Nat} (hc : c.Within front)
    (hfuel : c.rest.length < fuel) (hfuel' : c.rest.length < fuel') :
    skipSpacesTo column fuel' (c.extend back) = (skipSpacesTo column fuel c).extend back
      ∧ (skipSpacesTo column fuel c).Within front := by
  induction fuel generalizing fuel' c with
  | zero => omega
  | succ fuel ih =>
    obtain ⟨fuel', rfl⟩ : ∃ n, fuel' = n + 1 := ⟨fuel' - 1, by omega⟩
    have hpeek := peek_zero_class h (c := c) (· == ' ') (by decide)
    unfold skipSpacesTo
    simp only [hpeek]
    by_cases hspace : ((c.mark.column : Int) < column && c.peek 0 == ' ') = true
    · have hne : c.rest ≠ [] :=
        ne_nil_of_peek (beq_iff_eq.mp ((Bool.and_eq_true _ _).mp hspace).2) (by decide)
      have hless := advance_length hne
      rw [if_pos hspace, advance_extend h hne]
      show (if ((c.mark.column : Int) < column && c.peek 0 == ' ') = true then _ else _) = _ ∧ _
      rw [if_pos hspace]
      exact ih hc.advance (by omega) (by omega)
    · rw [if_neg hspace]
      show (if ((c.mark.column : Int) < column && c.peek 0 == ' ') = true then _ else _) = _ ∧ _
      rw [if_neg hspace]
      exact ⟨rfl, hc⟩

def Lead.extend (l : Lead) (back : List Char) : Lead := { l with cursor := l.cursor.extend back }

/-- The same lines, which stop in the text. -/
structure Lead.Same (front back : List Char) (l l' : Lead) : Prop where
  eq : l' = l.extend back
  cursor : l.cursor.Within front
  stop : l.stop.index ≤ front.length

theorem readLeadFrom_extend (indent : Int) {fuel fuel' : Nat} {stop : Mark} (hc : c.Within front)
    (hstop : stop.index ≤ front.length) (hfuel : c.rest.length < fuel)
    (hfuel' : c.rest.length < fuel') :
    Lead.Same front back (readLeadFrom indent fuel stop c)
      (readLeadFrom indent fuel' stop (c.extend back)) := by
  induction fuel generalizing fuel' stop c with
  | zero => omega
  | succ fuel ih =>
    obtain ⟨fuel', rfl⟩ : ∃ n, fuel' = n + 1 := ⟨fuel' - 1, by omega⟩
    obtain ⟨hspaces, hc1⟩ := skipSpacesTo_extend h indent hc (length_lt_steps c)
      (length_lt_steps_extend c back)
    have hle := (skipSpacesTo_suffix indent c.steps c).length_le
    have hbehind := hc1.lineBreak
    have hshorter := @lineBreak_length (skipSpacesTo indent c.steps c)
    rw [readLeadFrom, readLeadFrom]
    simp only [hspaces, lineBreak_extend h]
    generalize (skipSpacesTo indent c.steps c).lineBreak = broken at *
    obtain ⟨text, c2⟩ := broken
    cases text with
    | nil => exact ⟨rfl, hc1, hstop⟩
    | cons ch text =>
      have hless : c2.rest.length < _ := hshorter (List.cons_ne_nil _ _)
      have hc2 : c2.Within front := hbehind
      obtain ⟨heq, hcursor, hstop2⟩ := ih hc2 hc2.index_le (show c2.rest.length < fuel by omega)
        (show c2.rest.length < fuel' by omega)
      have heq' : readLeadFrom indent fuel' (c2.extend back).mark (c2.extend back)
          = (readLeadFrom indent fuel c2.mark c2).extend back := heq
      exact ⟨by simp only [heq']; rfl, hcursor, hstop2⟩

theorem readLead_extend (indent : Int) (hc : c.Within front) :
    Lead.Same front back (readLead indent c) (readLead indent (c.extend back)) :=
  readLeadFrom_extend h indent hc hc.index_le (length_lt_steps c) (length_lt_steps_extend c back)

/-- The same leading lines. -/
structure Leading.Same (front back : List Char) (l l' : Leading) : Prop where
  lead : Lead.Same front back l.lead l'.lead
  first : l'.first = l.first
  deepest : l'.deepest = l.deepest

theorem readLeadingFrom_extend {fuel fuel' : Nat} {stop : Mark} (first : Option Nat) (deepest : Nat)
    (hc : c.Within front) (hstop : stop.index ≤ front.length) (hfuel : c.rest.length < fuel)
    (hfuel' : c.rest.length < fuel') :
    Leading.Same front back (readLeadingFrom fuel stop first deepest c)
      (readLeadingFrom fuel' stop first deepest (c.extend back)) := by
  induction fuel generalizing fuel' stop first deepest c with
  | zero => omega
  | succ fuel ih =>
    obtain ⟨fuel', rfl⟩ : ∃ n, fuel' = n + 1 := ⟨fuel' - 1, by omega⟩
    have hpeek := peek_zero_class h (c := c) (· == ' ') (by decide)
    have hbehind := hc.lineBreak
    have hshorter := @lineBreak_length c
    rw [readLeadingFrom, readLeadingFrom, hpeek, lineBreak_extend h]
    split
    · rename_i hspace
      have hne : c.rest ≠ [] := ne_nil_of_peek (beq_iff_eq.mp hspace) (by decide)
      have hless := advance_length hne
      rw [advance_extend h hne]
      exact ih _ _ hc.advance hstop (by omega) (by omega)
    · generalize c.lineBreak = broken at *
      obtain ⟨text, c1⟩ := broken
      cases text with
      | nil => exact ⟨⟨rfl, hc, hstop⟩, rfl, rfl⟩
      | cons ch text =>
        have hless : c1.rest.length < c.rest.length := hshorter (List.cons_ne_nil _ _)
        have hc1 : c1.Within front := hbehind
        have hmore := ih (first.or (some c.mark.column)) deepest hc1 hc1.index_le
          (show c1.rest.length < fuel by omega) (show c1.rest.length < fuel' by omega)
        obtain ⟨⟨heq, hcursor, hstop1⟩, hfirst, hdeepest⟩ := hmore
        refine ⟨⟨?_, hcursor, hstop1⟩, hfirst, hdeepest⟩
        exact congrArg (fun l : Lead => { l with breaks := ch :: text ++ l.breaks }) heq

omit h in
theorem le_readLeadingFrom_deepest (fuel : Nat) (stop : Mark) (first : Option Nat) (deepest : Nat)
    (c : Cursor) : deepest ≤ (readLeadingFrom fuel stop first deepest c).deepest := by
  induction fuel generalizing stop first deepest c with
  | zero => exact Nat.le_refl _
  | succ fuel ih =>
    unfold readLeadingFrom
    split
    · exact (Nat.le_max_left _ _).trans (ih _ _ _ _)
    · split
      · exact Nat.le_refl _
      · exact ih _ _ _ _

omit h in
/-- Leading lines without a space that go up to the end are empty. -/
theorem readLeadingFrom_breaks (fuel : Nat) (stop : Mark) (first : Option Nat) (deepest : Nat)
    (c : Cursor) (hdeepest : (readLeadingFrom fuel stop first deepest c).deepest = 0)
    (hnil : (readLeadingFrom fuel stop first deepest c).lead.cursor.rest = []) :
    c.rest.all isBreak = true := by
  induction fuel generalizing stop first deepest c with
  | zero =>
    have hrest : c.rest = [] := hnil
    rw [hrest]
    rfl
  | succ fuel ih =>
    rw [readLeadingFrom] at hdeepest hnil
    by_cases hspace : (c.peek 0 == ' ') = true
    · have hne : c.rest ≠ [] := ne_nil_of_peek (beq_iff_eq.mp hspace) (by decide)
      obtain ⟨ch, rest, hcons⟩ := List.exists_cons_of_ne_nil hne
      have hcolumn : c.advance.mark.column = c.mark.column + 1 := by
        obtain rfl : ch = ' ' := (peek_of_cons hcons).symm.trans (beq_iff_eq.mp hspace)
        rw [advance, hcons]
        rfl
      have hle := le_readLeadingFrom_deepest fuel stop first (max deepest c.advance.mark.column)
        c.advance
      rw [if_pos hspace] at hdeepest
      have hzero : (readLeadingFrom fuel stop first (max deepest c.advance.mark.column)
        c.advance).deepest = 0 := hdeepest
      omega
    · rw [if_neg hspace] at hdeepest hnil
      rcases c.lineBreak_cases with ⟨-, heq⟩ | ⟨text, count, hbreaks, hne, -, -, heq⟩
      · rw [heq] at hnil
        have hrest : c.rest = [] := hnil
        rw [hrest]
        rfl
      · obtain ⟨ch, text, rfl⟩ := List.exists_cons_of_ne_nil hne
        rw [heq] at hdeepest hnil
        have hrest := ih _ _ _ _ hdeepest hnil
        rw [forward_rest] at hrest
        rw [← List.take_append_drop count c.rest, List.all_append, hbreaks, hrest]
        rfl

/-- The indentation is found in the text. -/
theorem readIndentation_extend (least : Int) (hc : c.Within front) :
    Tracks (fun r r' => r'.1 = r.1 ∧ Lead.Same front back r.2 r'.2) (readIndentation least c)
      (readIndentation least (c.extend back)) := by
  obtain ⟨hlead, hfirst, hdeepest⟩ := readLeadingFrom_extend h none 0 hc hc.index_le
    (length_lt_steps c) (length_lt_steps_extend c back)
  unfold readIndentation
  have hmark : (c.extend back).mark = c.mark := rfl
  simp only [hmark, hfirst, hdeepest]
  split
  · exact .ite (fun _ => Tracks.error) fun _ => .ok ⟨rfl, hlead⟩
  · exact .ok ⟨rfl, hlead⟩

omit h in
/-- The indentation is at least the one asked for, and is zero in front of the end only if all lines
are empty. -/
theorem readIndentation_reads_breaks (text : List Char) (least : Int) (c : Cursor) :
    Reads text (fun r => least ≤ r.1 ∧ (r.1 = 0 → r.2.cursor.rest = [] → c.rest.all isBreak = true))
      (readIndentation least c) := by
  have hbreaks := readLeadingFrom_breaks c.steps c.mark none 0 c
  unfold readIndentation
  generalize readLeadingFrom c.steps c.mark none 0 c = l at *
  have hdone : least ≤ max least l.deepest
      ∧ (max least l.deepest = 0 → l.lead.cursor.rest = [] → c.rest.all isBreak = true) :=
    ⟨by omega, fun hzero hnil => hbreaks (by omega) hnil⟩
  simp only
  split
  · split
    · exact deeperFirstLine_isOf text _
    · exact hdone
  · exact hdone

def BlockBody.extend (b : BlockBody) (back : List Char) : BlockBody :=
  { b with lead := b.lead.extend back }

/-- The same lines of a block scalar, which stop in the text. -/
structure BlockBody.Same (front back : List Char) (b b' : BlockBody) : Prop where
  eq : b' = b.extend back
  cursor : b.lead.cursor.Within front
  stop : b.lead.stop.index ≤ front.length

omit h in
theorem BlockBody.Same.ite {p : Prop} [Decidable p] {s s' t t' : BlockBody}
    (hs : p → BlockBody.Same front back s t) (hs' : ¬ p → BlockBody.Same front back s' t') :
    BlockBody.Same front back (if p then s else s') (if p then t else t') := by
  split
  · exact hs ‹_›
  · exact hs' ‹_›

/-- A line that is not at the end of the text is left behind. -/
theorem line_length (hc : c.Inside front) :
    (c.forward (c.run fun ch => !isLineStop ch).length).lineBreak.2.rest.length
      < c.rest.length := by
  have hinside := hc.forward_run h inLine_not_lineStop
  have hle := (forward_suffix (c.run fun ch => !isLineStop ch).length c).length_le
  have hstop := peek_forward_run hinside.ne_nil
  rcases lineBreak_cases (c.forward (c.run fun ch => !isLineStop ch).length) with
    ⟨hnone, -⟩ | ⟨text, count, -, -, hpos, hcount, heq⟩
  · rw [Bool.not_eq_false', isLineStop, hnone, Bool.or_false, beq_iff_eq] at hstop
    exact absurd hstop (hinside.peek_ne_finis h)
  · rw [heq, forward_rest _ (c.forward _), List.length_drop]
    omega

theorem readBlockLines_extend (folded : Bool) {least indent : Int} (hleast : 0 ≤ least)
    (hle : least ≤ indent) {fuel fuel' : Nat} (text lastBreak breaks : List Char) {stop : Mark}
    (hc : c.Within front) (hstop : stop.index ≤ front.length) (hnil : c.rest = [] → indent ≠ 0)
    (hfuel : c.rest.length < fuel) (hfuel' : c.rest.length < fuel') :
    BlockBody.Same front back
      (readBlockLines folded least indent fuel ⟨text, lastBreak, ⟨breaks, stop, c⟩⟩)
      (readBlockLines folded least indent fuel'
        ⟨text, lastBreak, ⟨breaks, stop, c.extend back⟩⟩) := by
  have hzero : ∀ {c : Cursor}, c.Within front → c.rest = [] → c.mark.column = 0 := by
    intro c hc hrest
    rw [hc.mark_eq hrest]
    exact last_column h
  induction fuel generalizing fuel' text lastBreak breaks stop c with
  | zero => omega
  | succ fuel ih =>
    obtain ⟨fuel', rfl⟩ : ∃ n, fuel' = n + 1 := ⟨fuel' - 1, by omega⟩
    have hstay : BlockBody.Same front back ⟨text, lastBreak, ⟨breaks, stop, c⟩⟩
        ⟨text, lastBreak, ⟨breaks, stop, c.extend back⟩⟩ := ⟨rfl, hc, hstop⟩
    rw [readBlockLines, readBlockLines]
    simp only
    by_cases hend : c.rest = []
    · have hcolumn := hzero hc hend
      have hindent := hnil hend
      have hleft : ((c.mark.column : Int) != indent || c.rest.isEmpty) = true := by
        rw [hend]
        simp
      have hright : (((c.extend back).mark.column : Int) != indent
          || (c.extend back).rest.isEmpty) = true := by
        show ((c.mark.column : Int) != indent || _) = true
        rw [hcolumn]
        simp [hindent.symm]
      rw [if_pos hleft, if_pos hright]
      exact hstay
    · have hinside : c.Inside front := ⟨hc, hend⟩
      obtain ⟨hempty, hempty'⟩ := hinside.isEmpty back
      have hbehind := hinside.forward_run h inLine_not_lineStop
      obtain ⟨hlead, hwithin, hstop1⟩ := readLead_extend h indent hbehind.within.lineBreak
      have hless := line_length h hinside
      have hsuffix := (readLead_suffix indent
        (c.forward (c.run fun ch => !isLineStop ch).length).lineBreak.2).length_le
      simp only [hempty, hempty', hinside.run h inLine_not_lineStop, forward_run_extend h,
        lineBreak_extend h, hlead, hinside.peek_zero]
      refine .ite (fun _ => hstay) fun _ => ?_
      generalize (c.forward (c.run fun ch => !isLineStop ch).length).lineBreak = broken at *
      generalize readLead indent broken.2 = lead at *
      by_cases hnext : lead.cursor.rest = []
      · -- the scalar ends with the text, and a marker ends it as well
        have hcolumn := hzero hwithin hnext
        have hcolumn' : (lead.extend back).cursor.mark.column = 0 := hcolumn
        have hmarker : (lead.extend back).cursor.isSeparator = true :=
          (isSeparator_extend_of_nil h hnext).2
        rw [if_pos (by rw [hnext]; simp), if_pos]
        · exact ⟨rfl, hwithin, hstop1⟩
        · rw [hcolumn', hmarker]
          by_cases hindent : indent = 0
          · obtain rfl : least = 0 := by omega
            rfl
          · simp [Ne.symm hindent]
      · have hinside1 : lead.cursor.Inside front := ⟨hwithin, hnext⟩
        have hempty1 := hinside1.isEmpty back
        have hempty1' : (lead.extend back).cursor.rest.isEmpty = false := hempty1.2
        have hpeek : (lead.extend back).cursor.peek 0 = lead.cursor.peek 0 := hinside1.peek_zero
        have hseparator : (lead.extend back).cursor.isSeparator = lead.cursor.isSeparator :=
          hinside1.isSeparator h
        have hmark : (lead.extend back).cursor.mark = lead.cursor.mark := rfl
        have hbreaks : (lead.extend back).breaks = lead.breaks := rfl
        simp only [hempty1.1, hempty1', hpeek, hseparator, hmark, hbreaks]
        refine .ite (fun _ => ⟨rfl, hwithin, hstop1⟩) fun _ => ?_
        exact ih _ _ lead.breaks hwithin hstop1 (fun hrest => absurd hrest hnext) (by omega)
          (by omega)

/-- A block scalar outside of all collections whose header says nothing about its indentation and is
followed by nothing but empty lines.  It takes in what follows, be it a marker. -/
def isBareBlock (indent : Int) (c : Cursor) : Bool :=
  indent < 0 && match readBlockHeader c.advance with
    | .ok (header, c) =>
      header.increment.isNone && match c.endLine with
        | .ok c => c.rest.all isBreak
        | .error _ => false
    | .error _ => false

/-- The same block scalar: its text, where it stops, and the cursor behind it. -/
def SameBlock (front back : List Char) (r r' : List Char × Mark × Cursor) : Prop :=
  r.2.2.Within front ∧ r.2.1.index ≤ front.length ∧ r' = (r.1, r.2.1, r.2.2.extend back)

theorem blockBehind_extend (chomping : Chomping) {body body' : BlockBody}
    (hbody : BlockBody.Same front back body body') :
    Tracks (SameBlock front back)
      (.ok (body.chomp chomping, body.lead.stop,
        if chomping = .keep || body.lead.breaks.isEmpty then body.lead.cursor
        else (body.lead.cursor.skipGap false).1))
      (.ok (body'.chomp chomping, body'.lead.stop,
        if chomping = .keep || body'.lead.breaks.isEmpty then body'.lead.cursor
        else (body'.lead.cursor.skipGap false).1)) := by
  obtain ⟨rfl, hcursor, hstop⟩ := hbody
  obtain ⟨hgap, hbehind⟩ := hcursor.skipGap h false
  have hchomp : (body.extend back).chomp chomping = body.chomp chomping := by
    cases chomping <;> rfl
  have hgap' : (body.extend back).lead.cursor.skipGap false = _ := hgap
  have hbreaks : (body.extend back).lead.breaks = body.lead.breaks := rfl
  rw [hchomp, hgap', hbreaks]
  split
  · exact .ok ⟨hcursor, hstop, rfl⟩
  · exact .ok ⟨hbehind, hstop, rfl⟩

theorem readBlockScalar_extend {indent : Int} (hindent : -1 ≤ indent) (hc : c.Inside front)
    (hmark : c.peek 0 = '|' ∨ c.peek 0 = '>') (hbare : isBareBlock indent c = false) :
    Tracks (SameBlock front back) (readBlockScalar indent c)
      (readBlockScalar indent (c.extend back)) := by
  have hc0 : c.advance.Inside front := hc.advance h (p := fun ch => ch == '|' || ch == '>')
    (by decide) (by rcases hmark with hmark | hmark <;> rw [hmark] <;> rfl)
  unfold readBlockScalar
  rw [hc.peek_zero, advance_extend h hc.ne_nil]
  refine .bind ((readBlockHeader_extend h hc0).reads
    (readBlockHeader_increment front c.advance)).with_eq ?_
  rintro ⟨header, c1⟩ _ ⟨hheader, hincrement, hc1, rfl⟩
  refine .bind (endLine_extend h hc1).with_eq ?_
  rintro c2 _ ⟨hline, hc2, rfl⟩
  -- what the header leaves, wherever the indentation comes from
  have hbody : ∀ {least indentation : Int} {lead lead' : Lead}, Lead.Same front back lead lead' →
      0 ≤ least → least ≤ indentation → (lead.cursor.rest = [] → indentation ≠ 0) →
      lead.cursor.rest <:+ c2.rest →
      BlockBody.Same front back
        (readBlockLines (c.peek 0 == '>') least indentation c2.steps ⟨[], [], lead⟩)
        (readBlockLines (c.peek 0 == '>') least indentation (c2.extend back).steps
          ⟨[], [], lead'⟩) := by
    rintro least indentation lead _ ⟨rfl, hcursor, hstop⟩ hleast hle hnil hsuffix
    have hlength := hsuffix.length_le
    have hsteps := length_lt_steps_extend c2 back
    exact readBlockLines_extend h _ hleast hle [] [] lead.breaks hcursor hstop hnil
      (Nat.lt_succ_of_le hlength) (by omega)
  simp only
  split
  · rename_i d hd
    have hd := hincrement d hd
    have hleast : 0 ≤ max (indent + 1) 1 := by omega
    have hle : max (indent + 1) 1 ≤ max (indent + 1) 1 + d - 1 := by omega
    have hpos : max (indent + 1) 1 + d - 1 ≠ 0 := by omega
    exact blockBehind_extend h _ (hbody (readLead_extend h _ hc2) hleast hle (fun _ => hpos)
      (readLead_suffix _ _))
  · rename_i hnone
    refine .bind ((readIndentation_extend h (indent + 1) hc2).reads
      ((readIndentation_reads_breaks front (indent + 1) c2).and (readIndentation_reads _ c2))) ?_
    rintro ⟨indentation, lead⟩ ⟨_, lead'⟩ ⟨⟨⟨hle, hbreaks⟩, hsuffix⟩, rfl, hlead⟩
    refine blockBehind_extend h _ (hbody hlead (by omega) hle (fun hnil hzero => ?_) hsuffix)
    have hall := hbreaks hzero hnil
    have hnegative : indent < 0 := by
      simp only at hle hzero
      omega
    have hbare' : isBareBlock indent c = true := by
      unfold isBareBlock
      rw [hheader]
      simp only [hline, hnone, hall, hnegative]
      rfl
    rw [hbare] at hbare'
    cases hbare'

end

end YamlSpan
