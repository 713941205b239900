import YamlSpan.Proofs.Extension

/-!
# Readers in a text that goes on

A reader that gives something in the first text gives the same in the text that goes on.  Nothing is
said where the first reader stops: a marker is not what the end of a text is, and the second reader
may go on.  Most readers end in front of the end of the text, where they looked at what follows.
Those of quoted scalars may get to the end of the text on the way, but not give a scalar there.

* `Tracks`              what the first reader gives is related to what the second gives
* `SameInside`          both go on in front of the end of the text, at the same place
* `readTag_extend`, `readDirective_extend`   tags and directives
* `TracksInside`        nothing is said about what the first reader gives at the end of the text
* `readQuoted_extend`   scalars in quotes
-/

namespace YamlSpan

open Cursor

/-! ### two readers -/

section
variable {α β γ δ : Type} {R : α → β → Prop} {S : γ → δ → Prop}

/-- Whatever the first reader gives, the second gives something that is related to it. -/
def Tracks (R : α → β → Prop) (x : Except Halt α) (y : Except Halt β) : Prop :=
  ∀ a, x = .ok a → ∃ b, y = .ok b ∧ R a b

theorem Tracks.ok {a : α} {b : β} (h : R a b) : Tracks R (.ok a) (.ok b) := by
  rintro _ ⟨⟩
  exact ⟨b, rfl, h⟩

theorem Tracks.refl (x : Except Halt α) : Tracks Eq x x := by
  rintro a rfl
  exact ⟨a, rfl, rfl⟩

theorem Tracks.error {halt : Halt} {y : Except Halt β} : Tracks R (.error halt) y := nofun

theorem Tracks.bind {x : Except Halt α} {y : Except Halt β} {f : α → Except Halt γ}
    {g : β → Except Halt δ} (hx : Tracks R x y) (hf : ∀ a b, R a b → Tracks S (f a) (g b)) :
    Tracks S (x >>= f) (y >>= g) := by
  cases x with
  | error halt => exact Tracks.error
  | ok a =>
    obtain ⟨b, rfl, hab⟩ := hx a rfl
    exact hf a b hab

theorem Reads.and {text : List Char} {P Q : α → Prop} {x : Except Halt α} (hP : Reads text P x)
    (hQ : Reads text Q x) : Reads text (fun a => P a ∧ Q a) x := by
  cases x with
  | error halt => exact hP
  | ok a => exact ⟨hP, hQ⟩

/-- What the first reader gives has a property, if its result always has. -/
theorem Tracks.reads {text : List Char} {P : α → Prop} {x : Except Halt α} {y : Except Halt β}
    (hx : Tracks R x y) (hP : Reads text P x) : Tracks (fun a b => P a ∧ R a b) x y := by
  rintro a rfl
  obtain ⟨b, hb, hab⟩ := hx a rfl
  exact ⟨b, hb, hP, hab⟩

theorem Tracks.with_eq {x : Except Halt α} {y : Except Halt β} (h : Tracks R x y) :
    Tracks (fun a b => x = .ok a ∧ R a b) x y := by
  intro a ha
  obtain ⟨b, hb, hab⟩ := h a ha
  exact ⟨b, hb, ha, hab⟩

theorem Tracks.ite {c : Prop} [Decidable c] {x x' : Except Halt α} {y y' : Except Halt β}
    (hx : c → Tracks R x y) (hy : ¬ c → Tracks R x' y') :
    Tracks R (if c then x else x') (if c then y else y') := by
  split
  · exact hx ‹_›
  · exact hy ‹_›

end

/-- Both readers go on inside of the text, at the same place. -/
def SameInside (front back : List Char) {α : Type} (r r' : α × Cursor) : Prop :=
  r.2.Inside front ∧ r' = (r.1, r.2.extend back)

/-- Both cursors are at the same place, which may be the end of the text. -/
def SamePlace (front back : List Char) (c c' : Cursor) : Prop :=
  c.Within front ∧ c' = c.extend back

section
variable {front back : List Char} (h : Continues front back) {c : Cursor}
include h

theorem endLine_extend (hc : c.Inside front) :
    Tracks (SamePlace front back) c.endLine (c.extend back).endLine := by
  obtain ⟨hblanks, hc1⟩ := hc.skipWhile h (p := isSpace) (by decide)
  obtain ⟨hcomment, hc2⟩ := hc1.skipComment h
  unfold endLine
  simp only [hblanks, hcomment, hc2.peek_zero, lineBreak_extend h]
  exact .ite (fun _ => .ok ⟨hc2.within.lineBreak, rfl⟩) fun _ => Tracks.error

theorem readName_extend (hc : c.advance.Inside front) (hne : c.rest ≠ []) :
    Tracks (SameInside front back) (readName c) (readName (c.extend back)) := by
  have hname : InLine isNameChar := by decide
  have hbehind := hc.forward_run h hname
  unfold readName
  simp only [advance_extend h hne, hc.run h hname, forward_run_extend h, hbehind.peek_zero]
  exact .ite (fun _ => Tracks.error) fun _ =>
    .ite (fun _ => .ok ⟨hbehind, rfl⟩) fun _ => Tracks.error

/-! ### tags and directives -/

theorem readOctets_extend {fuel fuel' : Nat} (hc : c.Inside front) (hfuel : c.rest.length < fuel)
    (hfuel' : c.rest.length < fuel') :
    Tracks (SameInside front back) (readOctets fuel c) (readOctets fuel' (c.extend back)) := by
  induction fuel generalizing fuel' c with
  | zero => omega
  | succ fuel ih =>
    obtain ⟨fuel', rfl⟩ : ∃ n, fuel' = n + 1 := ⟨fuel' - 1, by omega⟩
    unfold readOctets
    rw [hc.peek_zero]
    refine .ite (fun _ => .ok ⟨hc, rfl⟩) fun hpercent => ?_
    have hc1 : c.advance.Inside front := hc.advance h (p := (· == '%')) (by decide) (by
      simpa using hpercent)
    simp only [advance_extend h hc.ne_nil, hc1.peek_zero]
    refine .ite (fun _ => Tracks.error) fun hfirst => ?_
    have hc2 : (c.advance.forward 1).Inside front := hc1.advance h (p := isHexChar) (by decide) (by
      simpa using hfirst)
    simp only [hc2.peek]
    refine .ite (fun _ => Tracks.error) fun hsecond => ?_
    have hc3 : (c.advance.forward 2).Inside front := hc2.forward_succ h (p := isHexChar) (by decide)
      (by simpa using hsecond)
    have hlength : (c.advance.forward 2).rest.length < c.rest.length :=
      length_lt_of_tail hc.ne_nil (by
        rw [← advance_rest]
        exact forward_suffix _ _)
    simp only [hc3.forward_extend h]
    refine .bind (ih hc3 (by omega) (by omega)) ?_
    rintro ⟨octets, rest⟩ _ ⟨hrest, rfl⟩
    exact .ok ⟨hrest, rfl⟩

theorem readEscapes_extend (hc : c.Inside front) :
    Tracks (SameInside front back) (readEscapes c) (readEscapes (c.extend back)) := by
  unfold readEscapes
  refine .bind (readOctets_extend h hc (length_lt_steps _) (length_lt_steps_extend _ _)) ?_
  rintro ⟨octets, rest⟩ _ ⟨hrest, rfl⟩
  simp only
  split
  · exact .ok ⟨hrest, rfl⟩
  · exact Tracks.error

omit h in
/-- Escapes are not empty where there is one. -/
theorem readEscapes_tail {text : List Char} (hpeek : c.peek 0 = '%') :
    ReadsIn text c.rest.tail (readEscapes c) := by
  have hoctets : ReadsIn text c.rest.tail (readOctets c.steps c) := by
    rw [steps, readOctets, if_neg (by simp [hpeek])]
    refine .ite (fun _ => Reads.fail _ _ _) fun _ => .ite (fun _ => Reads.fail _ _ _) fun _ => ?_
    refine Reads.bind (readOctets_reads _ _) ?_
    rintro ⟨octets, rest⟩ hrest
    rw [← advance_rest]
    exact hrest.trans (forward_suffix _ _)
  unfold readEscapes
  refine Reads.bind hoctets ?_
  rintro ⟨octets, rest⟩ hrest
  simp only
  split
  · exact hrest
  · exact Reads.fail _ _ _

omit h in
theorem inLine_isUriChar (v : Version) : InLine (isUriChar v) := by
  unfold isUriChar
  generalize v.isLater = later
  cases later <;> decide

theorem readUriChars_extend (v : Version) {fuel fuel' : Nat} (hc : c.Inside front)
    (hfuel : c.rest.length < fuel) (hfuel' : c.rest.length < fuel') :
    Tracks (SameInside front back) (readUriChars v fuel c)
      (readUriChars v fuel' (c.extend back)) := by
  induction fuel generalizing fuel' c with
  | zero => omega
  | succ fuel ih =>
    obtain ⟨fuel', rfl⟩ : ∃ n, fuel' = n + 1 := ⟨fuel' - 1, by omega⟩
    unfold readUriChars
    rw [hc.peek_zero]
    refine .ite (fun hpercent => ?_) fun _ => .ite (fun hchar => ?_) fun _ => .ok ⟨hc, rfl⟩
    · have htail : ReadsIn front c.rest.tail (readEscapes c) :=
        readEscapes_tail (beq_iff_eq.mp hpercent)
      refine .bind ((readEscapes_extend h hc).reads htail) ?_
      rintro ⟨text, c1⟩ _ ⟨hsuffix, hc1, rfl⟩
      have hlength : c1.rest.length < c.rest.length := length_lt_of_tail hc.ne_nil hsuffix
      refine .bind (ih hc1 (by omega) (by omega)) ?_
      rintro ⟨more, c2⟩ _ ⟨hc2, rfl⟩
      exact .ok ⟨hc2, rfl⟩
    · have hc1 := hc.advance h (inLine_isUriChar v) hchar
      have hlength := advance_length hc.ne_nil
      rw [advance_extend h hc.ne_nil]
      refine .bind (ih hc1 (by omega) (by omega)) ?_
      rintro ⟨more, rest⟩ _ ⟨hrest, rfl⟩
      exact .ok ⟨hrest, rfl⟩

theorem readUri_extend (v : Version) (hc : c.Inside front) :
    Tracks (SameInside front back) (readUri v c) (readUri v (c.extend back)) := by
  unfold readUri
  rw [hc.peek_zero]
  refine .ite (fun _ => ?_) fun _ => Tracks.error
  refine .bind (readUriChars_extend h v hc (length_lt_steps _) (length_lt_steps_extend _ _)) ?_
  rintro ⟨text, c1⟩ _ ⟨hc1, rfl⟩
  exact .ok ⟨hc1, rfl⟩

theorem readHandle_extend (hc : c.Inside front) :
    Tracks (SameInside front back) (readHandle c) (readHandle (c.extend back)) := by
  unfold readHandle
  rw [hc.peek_zero]
  refine .ite (fun _ => Tracks.error) fun hmark => ?_
  have hc1 : c.advance.Inside front := hc.advance h (p := (· == '!')) (by decide) (by
    simpa using hmark)
  have hc2 := hc1.forward_run h (p := isWordChar) (by decide)
  simp only [advance_extend h hc.ne_nil, hc1.peek_zero, hc1.run h (p := isWordChar) (by decide),
    forward_run_extend h, hc2.peek_zero, advance_extend h hc2.ne_nil]
  refine .ite (fun _ => .ok ⟨hc1, rfl⟩) fun _ => .ite (fun hend => ?_) fun _ => Tracks.error
  exact .ok ⟨hc2.advance h (p := (· == '!')) (by decide) hend, rfl⟩

theorem hasHandle_extend (hc : c.advance.Inside front) :
    hasHandle (c.extend back) = hasHandle c := by
  have hrun := hc.run h (p := fun ch => !isStopOrSpace ch) (by decide)
  have hne : c.rest ≠ [] := fun hnil => hc.ne_nil (by rw [advance_rest, hnil, List.tail_nil])
  rw [← advance_extend h hne, Cursor.run, Cursor.run, advance_rest, advance_rest] at hrun
  rw [hasHandle, hasHandle, List.drop_one, List.drop_one, hrun]

theorem readTagParts_extend (v : Version) (hc : c.Inside front) (hmark : c.peek 0 = '!') :
    Tracks (SameInside front back) (readTagParts v c) (readTagParts v (c.extend back)) := by
  have hbang : InLine (· == '!') := by decide
  have hnext : c.advance.Inside front := hc.advance h hbang (by simp [hmark])
  -- the cursor is at the last exclamation mark in front of the suffix
  obtain ⟨short, c1, hc1, hmark1, hshort, hshort'⟩ : ∃ short c1, c1.Inside front
      ∧ c1.peek 0 = '!'
      ∧ (if c.peek 1 == '!' then ("!!", c.advance) else ("!", c)) = (short, c1)
      ∧ (if (c.extend back).peek 1 == '!' then ("!!", (c.extend back).advance)
          else ("!", c.extend back)) = (short, c1.extend back) := by
    rw [Inside.peek (k := 1) hnext, advance_extend h hc.ne_nil]
    split
    · rename_i hpeek
      exact ⟨_, _, hnext, by rw [← beq_iff_eq.mp hpeek]; exact peek_forward 1 c, rfl, rfl⟩
    · exact ⟨_, _, hc, hmark, rfl, rfl⟩
  have hnext1 : (c1.forward 1).Inside front := hc1.advance h hbang (by simp [hmark1])
  have hpeek1 : (c1.extend back).peek 1 = c1.peek 1 := hnext1.peek
  unfold readTagParts
  rw [hshort, hshort']
  simp only [hpeek1]
  refine .ite (fun hopen => ?_) fun _ => .ite (fun _ => ?_) fun _ => ?_
  · have hc2 : (c1.forward 2).Inside front :=
      hnext1.forward_succ h (p := (· == '<')) (by decide) hopen
    rw [hc2.forward_extend h]
    refine .bind (readUri_extend h v hc2) ?_
    rintro ⟨suffix, c3⟩ _ ⟨hc3, rfl⟩
    simp only [hc3.peek_zero, advance_extend h hc3.ne_nil]
    refine .ite (fun hclose => .ok ⟨?_, rfl⟩) fun _ => Tracks.error
    exact hc3.advance h (p := (· == '>')) (by decide) hclose
  · rw [advance_extend h hc1.ne_nil]
    exact .ok ⟨hnext1, rfl⟩
  · have hbehind : ∀ (handle : String) (c2 : Cursor), c2.Inside front →
        Tracks (SameInside front back)
          (readUri v c2 >>= fun r => pure (TokenKind.tag (some handle) r.1, r.2))
          (readUri v (c2.extend back) >>= fun r => pure (.tag (some handle) r.1, r.2)) := by
      intro handle c2 hc2
      refine .bind (readUri_extend h v hc2) ?_
      rintro ⟨suffix, c3⟩ _ ⟨hc3, rfl⟩
      exact .ok ⟨hc3, rfl⟩
    rw [hasHandle_extend h hnext1, advance_extend h hc1.ne_nil]
    refine .ite (fun _ => .bind (readHandle_extend h hc1) ?_) fun _ =>
      hbehind short c1.advance hnext1
    rintro ⟨handle, c2⟩ _ ⟨hc2, rfl⟩
    exact hbehind handle c2 hc2

theorem readTag_extend (v : Version) (hc : c.Inside front) (hmark : c.peek 0 = '!') :
    Tracks (SameInside front back) (readTag v c) (readTag v (c.extend back)) := by
  unfold readTag
  refine .bind (readTagParts_extend h v hc hmark) ?_
  rintro ⟨kind, c1⟩ _ ⟨hc1, rfl⟩
  simp only [hc1.peek_zero]
  exact .ite (fun _ => .ok ⟨hc1, rfl⟩) fun _ => Tracks.error

theorem readVersionNumber_extend (hc : c.Inside front) :
    Tracks (SameInside front back) (readVersionNumber c) (readVersionNumber (c.extend back)) := by
  have hdigit : InLine Char.isDigit := by decide
  unfold readVersionNumber
  simp only [hc.run h hdigit, forward_run_extend h]
  refine .ite (fun _ => Tracks.error) fun _ => ?_
  split
  · exact .ok ⟨hc.forward_run h hdigit, rfl⟩
  · exact Tracks.error

theorem readVersion_extend (hc : c.Inside front) :
    Tracks (SameInside front back) (readVersion c) (readVersion (c.extend back)) := by
  obtain ⟨hblanks, hc0⟩ := hc.skipWhile h (p := isSpace) (by decide)
  unfold readVersion
  rw [hblanks]
  refine .bind (readVersionNumber_extend h hc0) ?_
  rintro ⟨major, c1⟩ _ ⟨hc1, rfl⟩
  simp only [hc1.peek_zero, advance_extend h hc1.ne_nil]
  refine .ite (fun _ => Tracks.error) fun hpoint => ?_
  have hc2 : c1.advance.Inside front := hc1.advance h (p := (· == '.')) (by decide) (by
    simpa using hpoint)
  refine .bind (readVersionNumber_extend h hc2) ?_
  rintro ⟨minor, c3⟩ _ ⟨hc3, rfl⟩
  simp only [hc3.peek_zero]
  exact .ite (fun _ => .ok ⟨hc3, rfl⟩) fun _ => Tracks.error

theorem readHandleDirective_extend (v : Version) (hc : c.Inside front) :
    Tracks (SameInside front back) (readHandleDirective v c)
      (readHandleDirective v (c.extend back)) := by
  have hspace : InLine isSpace := by decide
  obtain ⟨hblanks, hc0⟩ := hc.skipWhile h hspace
  unfold readHandleDirective
  rw [hblanks]
  refine .bind (readHandle_extend h hc0) ?_
  rintro ⟨handle, c1⟩ _ ⟨hc1, rfl⟩
  obtain ⟨hblanks1, hc2⟩ := hc1.skipWhile h hspace
  simp only [hc1.peek_zero, hblanks1]
  refine .ite (fun _ => Tracks.error) fun _ => .bind (readUri_extend h v hc2) ?_
  rintro ⟨expansion, c3⟩ _ ⟨hc3, rfl⟩
  simp only [hc3.peek_zero]
  exact .ite (fun _ => .ok ⟨hc3, rfl⟩) fun _ => Tracks.error

theorem readDirectiveParts_extend (v : Version) (hc : c.Inside front) :
    Tracks (SameInside front back) (readDirectiveParts v c)
      (readDirectiveParts v (c.extend back)) := by
  have hname : InLine isDirectiveChar := by decide
  have hc1 := hc.forward_run h hname
  obtain ⟨hrest, hc2⟩ := hc1.skipWhile h inLine_not_lineStop
  unfold readDirectiveParts
  simp only [hc.run h hname, forward_run_extend h, hc1.peek_zero, hrest]
  refine .ite (fun _ => Tracks.error) fun _ => .ite (fun _ => Tracks.error) fun _ => ?_
  refine .ite (fun _ => ?_) fun _ => .ite (fun _ => ?_) fun _ => .ok ⟨hc2, rfl⟩
  · refine .bind (readVersion_extend h hc1) ?_
    rintro ⟨version, c3⟩ _ ⟨hc3, rfl⟩
    exact .ok ⟨hc3, rfl⟩
  · exact readHandleDirective_extend h v hc1

/-- A directive ends with its line, which may be the last. -/
theorem readDirective_extend (v : Version) (hc : c.Inside front) (hpercent : c.peek 0 = '%') :
    Tracks (fun r r' => r.2.Within front ∧ r' = (r.1, r.2.extend back)) (readDirective v c)
      (readDirective v (c.extend back)) := by
  have hc1 : c.advance.Inside front := hc.advance h (p := (· == '%')) (by decide) (by
    simp [hpercent])
  unfold readDirective
  rw [advance_extend h hc.ne_nil]
  refine .bind (readDirectiveParts_extend h v hc1) ?_
  rintro ⟨directive, c2⟩ _ ⟨hc2, rfl⟩
  refine .bind (endLine_extend h hc2) ?_
  rintro c3 _ ⟨hc3, rfl⟩
  exact .ok ⟨hc3, rfl⟩

end

/-! ### quoted scalars -/

section
variable {α β : Type}

/-- The two readers give the same where the first goes on inside of the text. -/
def TracksInside (front back : List Char) (x y : Except Halt (α × Cursor)) : Prop :=
  ∀ a c, x = .ok (a, c) → c.rest ≠ [] → c.Within front ∧ y = .ok (a, c.extend back)

variable {front back : List Char} {x y : Except Halt (α × Cursor)}
  {f g : α × Cursor → Except Halt (β × Cursor)}

theorem Tracks.inside (h : Tracks (SameInside front back) x y) : TracksInside front back x y := by
  rintro a c rfl -
  obtain ⟨_, hy, hc, rfl⟩ := h _ rfl
  exact ⟨hc.within, hy⟩

theorem TracksInside.error {halt : Halt} : TracksInside front back (.error halt) y := nofun

/-- At the end of the text the first reader stays there. -/
theorem TracksInside.of_end (h : ReadsIn front [] x) :
    TracksInside front back x y := by
  rintro a c rfl hne
  exact absurd (List.suffix_nil.mp h) hne

theorem TracksInside.bind (hx : TracksInside front back x y)
    (hf : ∀ a c, c.Inside front → TracksInside front back (f (a, c)) (g (a, c.extend back)))
    (hend : ∀ a c, c.rest = [] → ReadsIn front [] (f (a, c))) :
    TracksInside front back (x >>= f) (y >>= g) := by
  cases x with
  | error halt => exact TracksInside.error
  | ok r =>
    obtain ⟨a, c⟩ := r
    by_cases hnil : c.rest = []
    · exact TracksInside.of_end (hend a c hnil)
    · obtain ⟨hc, rfl⟩ := hx a c rfl hnil
      exact hf a c ⟨hc, hnil⟩

/-- The same, where the first reader stops at the end of the text. -/
theorem TracksInside.bind_tracks {γ δ : Type} {S : γ → δ → Prop} {P : α × Cursor → Prop}
    {f : α × Cursor → Except Halt γ} {g : α × Cursor → Except Halt δ}
    (hx : TracksInside front back x y) (hP : Reads front P x)
    (hf : ∀ a c, P (a, c) → c.Inside front → Tracks S (f (a, c)) (g (a, c.extend back)))
    (hend : ∀ a c, c.rest = [] → ∃ halt, f (a, c) = .error halt) :
    Tracks S (x >>= f) (y >>= g) := by
  cases x with
  | error halt => exact Tracks.error
  | ok r =>
    obtain ⟨a, c⟩ := r
    by_cases hnil : c.rest = []
    · obtain ⟨halt, heq⟩ := hend a c hnil
      intro b hb
      exact absurd (heq.symm.trans hb) nofun
    · obtain ⟨hc, rfl⟩ := hx a c rfl hnil
      exact hf a c hP ⟨hc, hnil⟩

theorem TracksInside.ite {p : Prop} [Decidable p] {x' y' : Except Halt (α × Cursor)}
    (hx : p → TracksInside front back x y) (hy : ¬ p → TracksInside front back x' y') :
    TracksInside front back (if p then x else x') (if p then y else y') := by
  split
  · exact hx ‹_›
  · exact hy ‹_›

end

section
variable {front back : List Char} (h : Continues front back) {c : Cursor}
include h

theorem readQuotedBreaks_extend {fuel fuel' : Nat} (hc : c.Within front)
    (hfuel : c.rest.length < fuel) (hfuel' : c.rest.length < fuel') :
    TracksInside front back (readQuotedBreaks fuel c)
      (readQuotedBreaks fuel' (c.extend back)) := by
  induction fuel generalizing fuel' c with
  | zero => omega
  | succ fuel ih =>
    by_cases hnil : c.rest = []
    · have hend : ReadsIn front c.rest (readQuotedBreaks (fuel + 1) c) := readQuotedBreaks_reads _ c
      rw [hnil] at hend
      exact TracksInside.of_end hend
    · obtain ⟨fuel', rfl⟩ : ∃ n, fuel' = n + 1 := ⟨fuel' - 1, by omega⟩
      have hinside : c.Inside front := ⟨hc, hnil⟩
      obtain ⟨hblanks, hc1⟩ := hinside.skipWhile h (p := isSpaceOrTab) (by decide)
      have hle := (skipWhile_suffix isSpaceOrTab c).length_le
      have hbehind := hc1.within.lineBreak
      have hshorter := @lineBreak_length (c.skipWhile isSpaceOrTab)
      unfold readQuotedBreaks
      simp only [hinside.isSeparator h, hblanks, lineBreak_extend h]
      refine TracksInside.ite (fun _ => TracksInside.error) fun _ => ?_
      generalize (c.skipWhile isSpaceOrTab).lineBreak = broken at *
      obtain ⟨text, c2⟩ := broken
      cases text with
      | nil => exact Tracks.inside (.ok ⟨hc1, rfl⟩)
      | cons ch text =>
        have hless : c2.rest.length < _ := hshorter (List.cons_ne_nil _ _)
        refine TracksInside.bind (ih hbehind (by omega) (by omega)) (fun more c3 hc3 => ?_)
          fun more c3 hnil3 => ?_
        · exact Tracks.inside (.ok ⟨hc3, rfl⟩)
        · exact List.suffix_nil.mpr hnil3

/-- Behind the digits of an escape the line goes on. -/
theorem Cursor.Inside.forward_digits {count : Nat} {p : Char → Bool} (hc : c.Inside front)
    (hp : InLine p) (hdigits : ¬ ((c.rest.take count).takeWhile p).length < count) :
    count ≤ c.rest.length ∧ (c.forward count).Inside front := by
  have hle := (List.takeWhile_prefix p (l := c.rest.take count)).length_le
  rw [List.length_take] at hle
  refine ⟨by omega, hc.within.forward count, fun hnil => ?_⟩
  rw [forward_rest, List.drop_eq_nil_iff] at hnil
  rw [List.take_of_length_le hnil] at hdigits
  have hsplit := congrArg List.length (List.takeWhile_append_dropWhile (p := p) (l := c.rest))
  have hpos := List.length_pos_iff.mpr (hc.dropWhile_ne_nil h hp)
  rw [List.length_append] at hsplit
  omega

theorem readEscape_extend (hc : c.Inside front) :
    TracksInside front back (readEscape c) (readEscape (c.extend back)) := by
  have hsimple : InLine fun ch => (simpleEscapes.lookup ch).isSome := by decide
  have hcode : InLine fun ch => (codeEscapes.lookup ch).isSome := by decide
  unfold readEscape
  simp only [hc.peek_zero, advance_extend h hc.ne_nil, lineBreak_extend h]
  split
  · rename_i heq
    exact Tracks.inside (.ok ⟨hc.advance h hsimple (by rw [heq]; rfl), rfl⟩)
  · rename_i count _ heq
    have hc1 := hc.advance h hcode (by rw [heq]; rfl)
    by_cases hdigits : ((c.advance.rest.take count).takeWhile isHexChar).length < count
    · rw [if_pos hdigits]
      exact TracksInside.error
    · obtain ⟨hle, hc2⟩ := hc1.forward_digits h (p := isHexChar) (by decide) hdigits
      have htake : (c.advance.extend back).rest.take count = c.advance.rest.take count :=
        List.take_append_of_le_length hle
      rw [htake, if_neg hdigits, if_neg hdigits, hc2.forward_extend h]
      cases codePointOf (Numeral.hexNumber ((c.advance.rest.take count).takeWhile isHexChar)) with
      | error halt => exact TracksInside.error
      | ok meaning => exact Tracks.inside (.ok ⟨hc2, rfl⟩)
  · refine TracksInside.ite (fun _ => ?_) fun _ => TracksInside.error
    have hlength : c.lineBreak.2.rest.length ≤ c.rest.length := (lineBreak_suffix c).length_le
    have hsteps : c.rest.length < (c.extend back).steps := length_lt_steps_extend _ _
    have hbreaks : TracksInside front back (readQuotedBreaks c.steps c.lineBreak.2)
        (readQuotedBreaks (c.extend back).steps (c.lineBreak.2.extend back)) :=
      readQuotedBreaks_extend h hc.within.lineBreak (Nat.lt_succ_of_le hlength) (by omega)
    refine TracksInside.bind hbreaks (fun breaks c2 hc2 => ?_) fun breaks c2 hnil => ?_
    · exact Tracks.inside (.ok ⟨hc2, rfl⟩)
    · exact List.suffix_nil.mpr hnil

theorem readQuotedWord_extend (quote : Char) {fuel fuel' : Nat} (hc : c.Within front)
    (hfuel : c.rest.length < fuel) (hfuel' : c.rest.length < fuel') :
    TracksInside front back (readQuotedWord quote fuel c)
      (readQuotedWord quote fuel' (c.extend back)) := by
  induction fuel generalizing fuel' c with
  | zero => omega
  | succ fuel ih =>
    by_cases hnil : c.rest = []
    · have hend : ReadsIn front c.rest (readQuotedWord quote (fuel + 1) c) :=
        readQuotedWord_reads quote _ c hc.suffix
      rw [hnil] at hend
      exact TracksInside.of_end hend
    · obtain ⟨fuel', rfl⟩ : ∃ n, fuel' = n + 1 := ⟨fuel' - 1, by omega⟩
      have hinside : c.Inside front := ⟨hc, hnil⟩
      have hmore : ∀ (part : Text) (c1 : Cursor), c1.Within front → c1.rest <:+ c.rest.tail →
          TracksInside front back
            (readQuotedWord quote fuel c1 >>= fun r => pure (part ++ r.1, r.2))
            (readQuotedWord quote fuel' (c1.extend back) >>= fun r => pure (part ++ r.1, r.2)) := by
        intro part c1 hc1 htail
        have hless := length_lt_of_tail hnil htail
        refine TracksInside.bind (ih hc1 (by omega) (by omega)) (fun more c2 hc2 => ?_)
          fun more c2 hnil2 => ?_
        · exact Tracks.inside (.ok ⟨hc2, rfl⟩)
        · exact List.suffix_nil.mpr hnil2
      have hone : c.advance.rest <:+ c.rest.tail := forward_suffix_tail Nat.one_pos c
      have hpair := hinside.peek_and h (p := (· == '\'')) (q := (· == '\'')) (by decide)
      unfold readQuotedWord
      simp only [hinside.peek_zero, hpair, advance_extend h hnil]
      split
      · exact hmore _ _ hc.advance hone
      · split
        · split
          · rename_i hquotes
            rw [Bool.and_eq_true] at hquotes
            have hnext : (c.forward 1).Inside front :=
              hinside.advance h (p := (· == '\'')) (by decide) hquotes.1
            have hc2 := hnext.forward_succ h (p := (· == '\'')) (by decide) hquotes.2
            rw [hc2.forward_extend h]
            exact hmore _ _ hc2.within (forward_suffix_tail Nat.two_pos c)
          · split
            · exact hmore _ _ hc.advance hone
            · exact Tracks.inside (.ok ⟨hinside, rfl⟩)
        · split
          · exact hmore _ _ hc.advance hone
          · split
            · rename_i hslash
              have hc1 := hinside.advance h (p := (· == '\\')) (by decide) hslash
              have hmem : '\\' ∈ front :=
                hc.suffix.subset (mem_of_peek (beq_iff_eq.mp hslash) (by decide))
              have hreads : ReadsIn front c.advance.rest (readEscape c.advance) :=
                readEscape_reads _ hmem
              have hescape := readEscape_extend h hc1
              generalize readEscape c.advance = escape at *
              cases escape with
              | error halt => exact TracksInside.error
              | ok out =>
                obtain ⟨part, c2⟩ := out
                by_cases hnil2 : c2.rest = []
                · have hword : ReadsIn front [] (readQuotedWord quote fuel c2) := by
                    rw [← hnil2]
                    exact readQuotedWord_reads quote fuel c2 (by rw [hnil2]; exact List.nil_suffix)
                  have hend : ReadsIn front [] (readQuotedWord quote fuel c2 >>= fun r =>
                      pure (part ++ r.1, r.2)) := Reads.bind hword fun r hr => hr
                  exact TracksInside.of_end hend
                · obtain ⟨hc2, heq⟩ := hescape part c2 rfl hnil2
                  rw [heq]
                  exact hmore part c2 hc2 (advance_rest c ▸ hreads)
            · exact Tracks.inside (.ok ⟨hinside, rfl⟩)

theorem readQuotedGap_extend (hc : c.Inside front) :
    TracksInside front back (readQuotedGap c) (readQuotedGap (c.extend back)) := by
  have hblank : InLine isSpaceOrTab := by decide
  have hc1 := hc.forward_run h hblank
  obtain ⟨hopen, hopen'⟩ := hc1.isEmpty back
  have hbehind := hc1.within.lineBreak
  unfold readQuotedGap
  simp only [hc.run h hblank, forward_run_extend h, lineBreak_extend h, hopen, hopen',
    Bool.false_eq_true, if_false]
  generalize (c.forward (c.run isSpaceOrTab).length).lineBreak = broken at *
  obtain ⟨text, c2⟩ := broken
  cases text with
  | nil => exact Tracks.inside (.ok ⟨hc1, rfl⟩)
  | cons ch text =>
    have hbreaks : TracksInside front back (readQuotedBreaks c2.steps c2)
        (readQuotedBreaks (c2.extend back).steps (c2.extend back)) :=
      readQuotedBreaks_extend h hbehind (length_lt_steps _) (length_lt_steps_extend _ _)
    refine TracksInside.bind hbreaks (fun breaks c3 hc3 => ?_) fun breaks c3 hnil => ?_
    · exact Tracks.inside (.ok ⟨hc3, rfl⟩)
    · exact List.suffix_nil.mpr hnil

end

/-- Where a word in quotes ends. -/
def EndsWord (quote : Char) (c : Cursor) : Prop :=
  isStopOrBlank (c.peek 0) = true ∨ c.peek 0 = quote

theorem readQuotedWord_ends {text : List Char} {quote : Char} (hquote : quote = '\'' ∨ quote = '"')
    {fuel : Nat} {c : Cursor} (hc : c.rest <:+ text) (hfuel : c.rest.length < fuel) :
    Reads text (fun r => EndsWord quote r.2) (readQuotedWord quote fuel c) := by
  induction fuel generalizing c with
  | zero => omega
  | succ fuel ih =>
    by_cases hnil : c.rest = []
    · refine (readQuotedWord_reads quote (fuel + 1) c hc).mono fun r hr => .inl ?_
      rw [hnil] at hr
      rw [peek_of_nil (List.suffix_nil.mp hr)]
      rfl
    have hmore : ∀ (part : Text) (c1 : Cursor), c1.rest <:+ c.rest.tail →
        Reads text (fun r => EndsWord quote r.2)
          (readQuotedWord quote fuel c1 >>= fun r => pure (part ++ r.1, r.2)) := by
      intro part c1 htail
      have hless := length_lt_of_tail hnil htail
      exact Reads.bind (ih (htail.trans ((List.tail_suffix _).trans hc)) (by omega)) fun r hr => hr
    have hone : c.advance.rest <:+ c.rest.tail := forward_suffix_tail Nat.one_pos c
    unfold readQuotedWord
    simp only
    split
    · exact hmore _ _ hone
    · rename_i hplain
      simp only [isPlainInQuotes, Bool.not_eq_true, Bool.not_eq_false', Bool.or_eq_true,
        beq_iff_eq] at hplain
      split
      · rename_i hsingle
        split
        · exact hmore _ _ (forward_suffix_tail Nat.two_pos c)
        · split
          · exact hmore _ _ hone
          · rename_i hother
            simp only [Bool.or_eq_true, beq_iff_eq, not_or] at hother
            obtain ((hstop | hch) | hch) | hch := hplain
            · exact .inl hstop
            · exact .inr (hch.trans (beq_iff_eq.mp hsingle).symm)
            · exact absurd hch hother.1
            · exact absurd hch hother.2
      · split
        · exact hmore _ _ hone
        · split
          · rename_i hslash
            have hmem : '\\' ∈ text := hc.subset (mem_of_peek (by simpa using hslash) (by decide))
            refine Reads.bind (Reads.map (readEscape_reads c.advance hmem) some) ?_
            rintro _ ⟨⟨part, c1⟩, h1, rfl⟩
            exact hmore part c1 (advance_rest c ▸ h1)
          · rename_i hsingle hch1 hch2
            rw [beq_iff_eq] at hsingle hch1 hch2
            obtain ((hstop | hch) | hch) | hch := hplain
            · exact .inl hstop
            · exact absurd hch hch1
            · exact .inr (hch.trans (hquote.resolve_left hsingle).symm)
            · exact absurd hch hch2

/-- A gap that begins with a blank or a line break is not empty. -/
theorem readQuotedGap_tail {text : List Char} {c : Cursor} (hpeek : isStopOrBlank (c.peek 0) = true)
    (hne : c.peek 0 ≠ finis) : ReadsIn text c.rest.tail (readQuotedGap c) := by
  unfold readQuotedGap
  simp only
  refine .ite (fun _ => Reads.fail _ _ _) fun _ => ?_
  rcases lineBreak_cases (c.forward (c.run isSpaceOrTab).length) with
    ⟨hnone, heq⟩ | ⟨broken, count, -, hbroken, hpos, -, heq⟩
  · have hblanks : c.run isSpaceOrTab ≠ [] := by
      intro hrun
      rw [peek_forward, hrun, List.length_nil] at hnone
      have hblank : isSpaceOrTab (c.peek 0) = true := by
        simpa [isStopOrBlank, isStopOrSpace, isLineStop, isSpaceOrTab, hnone, hne] using hpeek
      obtain ⟨ch, rest, hcons⟩ := List.exists_cons_of_ne_nil (ne_nil_of_peek rfl hne)
      rw [peek_of_cons hcons] at hblank
      rw [Cursor.run, hcons, List.takeWhile_cons, if_pos hblank] at hrun
      exact List.cons_ne_nil _ _ hrun
    rw [heq]
    exact forward_suffix_tail (List.length_pos_iff.mpr hblanks) c
  · have hbehind :
        ((c.forward (c.run isSpaceOrTab).length).forward count).rest <:+ c.rest.tail := by
      rw [forward_rest, forward_rest, List.drop_drop, ← List.drop_one]
      exact List.drop_suffix_drop_left _ (by omega)
    rw [heq]
    obtain ⟨ch, chars, rfl⟩ := List.exists_cons_of_ne_nil hbroken
    refine Reads.bind (readQuotedBreaks_reads _ _) ?_
    rintro ⟨breaks, c3⟩ hc3
    exact hc3.trans hbehind

section
variable {front back : List Char} (h : Continues front back) {c : Cursor}

theorem readQuotedGap_of_nil (hnil : c.rest = []) : readQuotedGap c = c.fail .unclosedQuote := by
  have hrun : c.run isSpaceOrTab = [] := by
    rw [Cursor.run, hnil]
    rfl
  unfold readQuotedGap
  simp only [hrun, List.length_nil, forward]
  rw [hnil]
  rfl

theorem quoted_of_nil {γ : Type} {quote : Char} (hquote : quote ≠ finis) (hnil : c.rest = [])
    (x : Except Halt γ) (f : List Char × Cursor → Except Halt γ) :
    (if c.peek 0 == quote then x else readQuotedGap c >>= f)
      = .error (Problem.unclosedQuote.halt c.mark) := by
  rw [peek_of_nil hnil, if_neg (by simpa using hquote.symm), readQuotedGap_of_nil hnil]
  rfl

/-- Nothing in quotes ends at the end of a text. -/
theorem readQuotedText_of_nil {quote : Char} (hquote : quote ≠ finis) (fuel : Nat)
    (hnil : c.rest = []) : ∃ halt, readQuotedText quote (fuel + 1) c = .error halt := by
  have hword : ReadsIn [] [] (readQuotedWord quote c.steps c) := by
    rw [← hnil]
    exact readQuotedWord_reads quote _ c List.suffix_rfl
  unfold readQuotedText
  generalize readQuotedWord quote c.steps c = word at *
  cases word with
  | error halt => exact ⟨halt, rfl⟩
  | ok out =>
    exact ⟨_, quoted_of_nil hquote (List.suffix_nil.mp hword) _ _⟩

include h

theorem readQuotedText_extend {quote : Char} (hquote : quote = '\'' ∨ quote = '"')
    {fuel fuel' : Nat} (hc : c.Inside front) (hfuel : c.rest.length < fuel)
    (hfuel' : c.rest.length < fuel') :
    Tracks (SameInside front back) (readQuotedText quote fuel c)
      (readQuotedText quote fuel' (c.extend back)) := by
  have hfinis : quote ≠ finis := by rcases hquote with rfl | rfl <;> decide
  have hinline : InLine (· == quote) := by rcases hquote with rfl | rfl <;> decide
  induction fuel generalizing fuel' c with
  | zero => omega
  | succ fuel ih =>
    obtain ⟨fuel', rfl⟩ : ∃ n, fuel' = n + 1 := ⟨fuel' - 1, by omega⟩
    have hword : TracksInside front back (readQuotedWord quote c.steps c)
        (readQuotedWord quote (c.extend back).steps (c.extend back)) :=
      readQuotedWord_extend h quote hc.within (length_lt_steps _) (length_lt_steps_extend _ _)
    have hreads : ReadsIn front c.rest (readQuotedWord quote c.steps c) :=
      readQuotedWord_reads quote c.steps c hc.within.suffix
    have hends := readQuotedWord_ends hquote hc.within.suffix (Nat.lt_succ_self c.rest.length)
    unfold readQuotedText
    refine hword.bind_tracks (hreads.and hends) (fun word c1 hc1 hinside => ?_)
      fun word c1 hnil1 => ?_
    · simp only [hinside.peek_zero, advance_extend h hinside.ne_nil]
      refine .ite (fun hclose => .ok ⟨hinside.advance h hinline hclose, rfl⟩) fun hopen => ?_
      -- the word ended at a blank or a line break, so the gap moves on
      have hstop := hc1.2.resolve_right (by simpa using hopen)
      have htail : ReadsIn front c1.rest.tail (readQuotedGap c1) :=
        readQuotedGap_tail hstop (hinside.peek_ne_finis h)
      have hle : c1.rest.length ≤ c.rest.length := hc1.1.length_le
      refine (readQuotedGap_extend h hinside).bind_tracks htail (fun gap c2 hc2 hinside2 => ?_)
        fun gap c2 hnil2 => ?_
      · have hless : c2.rest.length < c1.rest.length := length_lt_of_tail hinside.ne_nil hc2
        have hmore : Tracks (SameInside front back) (readQuotedText quote fuel c2)
            (readQuotedText quote fuel' (c2.extend back)) := ih hinside2 (by omega) (by omega)
        refine .bind hmore ?_
        rintro ⟨more, c3⟩ _ ⟨hc3, rfl⟩
        exact .ok ⟨hc3, rfl⟩
      · have hpos := List.length_pos_iff.mpr hc.ne_nil
        obtain ⟨fuel, rfl⟩ : ∃ n, fuel = n + 1 := ⟨fuel - 1, by omega⟩
        obtain ⟨halt, herror⟩ := readQuotedText_of_nil hfinis fuel hnil2
        exact ⟨halt, by simp only [herror]; rfl⟩
    · exact ⟨_, quoted_of_nil hfinis hnil1 _ _⟩

theorem readQuoted_extend (hc : c.Inside front) (hquote : c.peek 0 = '\'' ∨ c.peek 0 = '"') :
    Tracks (SameInside front back) (readQuoted c) (readQuoted (c.extend back)) := by
  have hc1 : c.advance.Inside front := hc.advance h (p := fun ch => ch == '\'' || ch == '"')
    (by decide) (by rcases hquote with hquote | hquote <;> rw [hquote] <;> rfl)
  have hless := advance_length hc.ne_nil
  have hsteps : c.rest.length < (c.extend back).steps := length_lt_steps_extend _ _
  unfold readQuoted
  rw [hc.peek_zero, advance_extend h hc.ne_nil]
  exact readQuotedText_extend h hquote hc1 (Nat.lt_succ_of_lt hless) (by omega)

end

end YamlSpan
