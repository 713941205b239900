import YamlSpan.Proofs.Readers
import YamlSpan.Token.Lexer

/-!
# Lexing comes to an end

A step of the lexer stops for a reason that lies in the text, or moves over at least one character,
or ends the text.  So as many steps as there are characters, and one for the end, are enough, and
the tokens of a text that nothing stops go up to its end.

* `Lexer.Keeps`       a part of a step that reads nothing
* `Lexer.Moves`       one that reads
* `Lexer.step_reads`  one step
* `lex_isOf`          the tokens of a text
-/

namespace YamlSpan

open Cursor

/-- The tokens that a text may have: they stop for a reason that it gives, or go up to its end. -/
structure TokenRun.IsOf (text : List Char) (run : TokenRun) : Prop where
  tokens : ∀ t ∈ run.tokens, t.token.kind.IsOf text
  halt : ∀ h, run.halt = some h → h.IsOf text
  stop : run.halt = none → ∃ t ∈ run.tokens, t.token.kind = .streamEnd

namespace Lexer

/-- Nothing is read: the queue gets tokens that the text may have, and what may be a key changes. -/
structure Keeps (text : List Char) (s s' : Lexer) : Prop where
  cursor : s'.cursor = s.cursor
  version : s'.version = s.version
  flow : s'.flow = s.flow
  finished : s'.finished = s.finished
  queue : ∀ t ∈ s'.queue, t ∈ s.queue ∨ t.kind.IsOf text

/-- At least one character is read, and the queue gets tokens that the text may have. -/
structure Moves (text : List Char) (s s' : Lexer) : Prop where
  cursor : s'.cursor.rest <:+ s.cursor.rest.tail
  finished : s'.finished = s.finished
  queue : ∀ t ∈ s'.queue, t ∈ s.queue ∨ t.kind.IsOf text

/-- The text is at its end, and the queue says so. -/
structure Ends (text : List Char) (s s' : Lexer) : Prop where
  cursor : s'.cursor = s.cursor
  finished : s'.finished = true
  queue : ∀ t ∈ s'.queue, t ∈ s.queue ∨ t.kind.IsOf text
  stop : ∃ t ∈ s'.queue, t.kind = .streamEnd

section
variable {text : List Char} {s s1 s2 : Lexer}

theorem Keeps.rfl : Keeps text s s := ⟨.refl _, .refl _, .refl _, .refl _, fun _ h => .inl h⟩

theorem queue_trans (h1 : ∀ t ∈ s1.queue, t ∈ s.queue ∨ t.kind.IsOf text)
    (h2 : ∀ t ∈ s2.queue, t ∈ s1.queue ∨ t.kind.IsOf text) :
    ∀ t ∈ s2.queue, t ∈ s.queue ∨ t.kind.IsOf text := by
  intro t ht
  rcases h2 t ht with h | h
  · exact h1 t h
  · exact .inr h

theorem Keeps.trans (h1 : Keeps text s s1) (h2 : Keeps text s1 s2) : Keeps text s s2 :=
  ⟨h2.cursor.trans h1.cursor, h2.version.trans h1.version, h2.flow.trans h1.flow,
    h2.finished.trans h1.finished, queue_trans h1.queue h2.queue⟩

theorem Keeps.moves (h1 : Keeps text s s1) (h2 : Moves text s1 s2) : Moves text s s2 := by
  refine ⟨?_, h2.finished.trans h1.finished, queue_trans h1.queue h2.queue⟩
  rw [← h1.cursor]
  exact h2.cursor

/-- Only the cursor, the queue and the end count. -/
theorem Moves.of_eq (h : Moves text s1 s2) (hcursor : s1.cursor = s.cursor)
    (hfinished : s1.finished = s.finished) (hqueue : s1.queue = s.queue) : Moves text s s2 :=
  ⟨hcursor ▸ h.cursor, h.finished.trans hfinished, hqueue ▸ h.queue⟩

theorem Keeps.ends (h1 : Keeps text s s1) (h2 : Ends text s1 s2) : Ends text s s2 :=
  ⟨h2.cursor.trans h1.cursor, h2.finished, queue_trans h1.queue h2.queue, h2.stop⟩

end

section
variable {text : List Char} (s : Lexer)

/-! ### what reads nothing -/

theorem allowKey_keeps (allowed : Bool) : Keeps text s (s.allowKey allowed) :=
  ⟨rfl, rfl, rfl, rfl, fun _ h => .inl h⟩

theorem mem_unwindTo {column : Int} {closing : Token} {indent : Int} {indents : List Int}
    {t : Token} (h : t ∈ (unwindTo column closing indent indents).1) : t = closing := by
  induction indents generalizing indent with
  | nil => cases h
  | cons outer indents ih =>
    rw [unwindTo] at h
    split at h
    · rcases List.mem_cons.mp h with h | h
      · exact h
      · exact ih h
    · cases h

theorem unwind_keeps (column : Int) : Keeps text s (s.unwind column) := by
  unfold unwind
  split
  · exact .rfl
  · refine ⟨rfl, rfl, rfl, rfl, fun t ht => ?_⟩
    rcases List.mem_append.mp ht with h | h
    · exact .inl h
    · rw [mem_unwindTo h]
      exact .inr trivial

theorem eq_or_mem_of_mem_insertIdx {t new : Token} {queue : List Token} {place : Nat}
    (h : t ∈ queue.insertIdx place new) : t = new ∨ t ∈ queue := by
  by_cases hplace : place ≤ queue.length
  · exact (List.mem_insertIdx hplace).mp h
  · rw [List.insertIdx_of_length_lt (by omega)] at h
    exact .inr h

theorem indentTo_keeps (column : Int) (kind : TokenKind) (hkind : kind.IsOf text) (mark : Mark)
    (place : Nat) : Keeps text s (s.indentTo column kind mark place) := by
  unfold indentTo
  split
  · refine ⟨rfl, rfl, rfl, rfl, fun t ht => ?_⟩
    rcases eq_or_mem_of_mem_insertIdx ht with rfl | h
    · exact .inr hkind
    · exact .inl h
  · exact .rfl

theorem insertKey_keeps (k : KeyPlace) : Keeps text s (s.insertKey k) := by
  refine Keeps.trans ?_ (indentTo_keeps _ _ .blockMappingStart trivial _ _)
  refine ⟨rfl, rfl, rfl, rfl, fun t ht => ?_⟩
  rcases eq_or_mem_of_mem_insertIdx ht with rfl | h
  · exact .inr trivial
  · exact .inl h

theorem fails_reads (keys : List KeyPlace) : Reads text (fun _ => True) (s.fails keys) := by
  unfold fails
  split
  · exact Reads.fail _ _ _
  · trivial

theorem dropExpired_reads : Reads text (Keeps text s) s.dropExpired :=
  Reads.bind (fails_reads s _) fun _ _ => ⟨rfl, rfl, rfl, rfl, fun _ h => .inl h⟩

theorem dropKey_reads : Reads text (Keeps text s) s.dropKey :=
  Reads.bind (fails_reads s _) fun _ _ => ⟨rfl, rfl, rfl, rfl, fun _ h => .inl h⟩

theorem markKey_reads : Reads text (Keeps text s) s.markKey := by
  unfold markKey
  split
  · refine Reads.bind (dropKey_reads s) ?_
    intro s1 h1
    exact ⟨h1.cursor, h1.version, h1.flow, h1.finished, h1.queue⟩
  · exact Keeps.rfl

/-! ### what reads -/

theorem mem_emit {t : Token} {queue : List Token} {last : Token} (hlast : last.kind.IsOf text)
    (h : t ∈ queue ++ [last]) : t ∈ queue ∨ t.kind.IsOf text := by
  rcases List.mem_append.mp h with h | h
  · exact .inl h
  · rw [List.mem_singleton.mp h]
    exact .inr hlast

theorem emit_moves (kind : TokenKind) (hkind : kind.IsOf text) {behind : Cursor}
    (h : behind.rest <:+ s.cursor.rest.tail) : Moves text s (s.emit kind behind) :=
  ⟨h, rfl, fun _ => mem_emit hkind⟩

theorem emitChars_moves (kind : TokenKind) (hkind : kind.IsOf text) (count : Nat) :
    Moves text s (s.emitChars kind (count + 1)) :=
  emit_moves s kind hkind (forward_suffix_tail (Nat.succ_pos count) s.cursor)

theorem lexEnd_reads : Reads text (Ends text s) s.lexEnd := by
  unfold lexEnd
  refine Reads.bind (dropKey_reads _) ?_
  intro s1 h1
  have hkeeps := ((unwind_keeps s (-1)).trans h1).trans (allowKey_keeps s1 false)
  let last : Token := ⟨.streamEnd, s1.cursor.mark, s1.cursor.mark⟩
  exact hkeeps.ends ⟨rfl, rfl, fun _ => mem_emit (show last.kind.IsOf text from trivial), last,
    List.mem_append_right _ (List.mem_singleton.mpr rfl), rfl⟩

theorem lexDirective_reads (hs : s.cursor.rest <:+ text) (h : '%' ∈ text) :
    Reads text (Moves text s) s.lexDirective := by
  unfold lexDirective
  refine Reads.bind (dropKey_reads _) ?_
  intro s1 h1
  have h1 := (unwind_keeps s _).trans h1
  have hcursor : s1.cursor.rest <:+ text := by rwa [h1.cursor]
  refine Reads.bind (readDirective_reads s1.version s1.cursor hcursor h) ?_
  rintro ⟨directive, behind⟩ hbehind
  have hemit : Moves text s1 ((s1.allowKey false).emit (.directive directive) behind) :=
    (allowKey_keeps s1 false).moves (emit_moves _ (.directive directive) h hbehind)
  cases directive with
  | version v => exact h1.moves ⟨hemit.cursor, hemit.finished, hemit.queue⟩
  | handle => exact h1.moves hemit
  | other => exact h1.moves hemit

theorem lexMarker_reads (kind : TokenKind) (hkind : kind.IsOf text) :
    Reads text (Moves text s) (s.lexMarker kind) := by
  unfold lexMarker
  refine Reads.bind (dropKey_reads _) ?_
  intro s1 h1
  have hkeeps := ((unwind_keeps s (-1)).trans h1).trans (allowKey_keeps s1 false)
  exact hkeeps.moves (emitChars_moves _ kind hkind 2)

theorem lexFlowStart_reads (kind : TokenKind) (hkind : kind.IsOf text) (flow : FlowKind) :
    Reads text (Moves text s) (s.lexFlowStart kind flow) := by
  unfold lexFlowStart
  refine Reads.bind (markKey_reads s) ?_
  intro s1 h1
  have hemit := emitChars_moves ({ s1 with flow := flow :: s1.flow }.allowKey true) kind hkind 0
  exact h1.moves (hemit.of_eq rfl rfl rfl)

theorem lexFlowEnd_reads (kind : TokenKind) (hkind : kind.IsOf text) :
    Reads text (Moves text s) (s.lexFlowEnd kind) := by
  unfold lexFlowEnd
  refine Reads.bind (dropKey_reads s) ?_
  intro s1 h1
  have hemit := emitChars_moves ({ s1 with flow := s1.flow.tail }.allowKey false) kind hkind 0
  exact h1.moves (hemit.of_eq rfl rfl rfl)

theorem lexFlowEntry_reads : Reads text (Moves text s) s.lexFlowEntry := by
  unfold lexFlowEntry
  refine Reads.bind (dropKey_reads _) ?_
  intro s1 h1
  exact ((allowKey_keeps s true).trans h1).moves (emitChars_moves s1 .flowEntry trivial 0)

/-- What `-`, `?` and `:` have in common: a block may begin, and a key may follow. -/
theorem indicator_reads (start : TokenKind) (hstart : start.IsOf text) (kind : TokenKind)
    (hkind : kind.IsOf text) (allowed : Bool) :
    Reads text (Moves text s)
      (((s.indentTo s.column start s.cursor.mark s.queue.length).allowKey allowed).dropKey
        >>= fun s1 => pure (s1.emitChars kind 1)) := by
  refine Reads.bind (dropKey_reads _) ?_
  intro s1 h1
  have hindent := (indentTo_keeps s s.column start hstart s.cursor.mark s.queue.length).trans
    (allowKey_keeps _ allowed)
  exact (hindent.trans h1).moves (emitChars_moves s1 kind hkind 0)

theorem lexBlockEntry_reads : Reads text (Moves text s) s.lexBlockEntry := by
  unfold lexBlockEntry
  split
  · exact Reads.fail _ _ _
  · exact indicator_reads s .blockSequenceStart trivial .blockEntry trivial true

theorem lexKey_reads : Reads text (Moves text s) s.lexKey := by
  unfold lexKey
  split
  · exact Reads.fail _ _ _
  · exact indicator_reads s .blockMappingStart trivial .key trivial _

theorem lexValue_reads : Reads text (Moves text s) s.lexValue := by
  unfold lexValue
  split
  · rename_i k _
    have hkeeps : Keeps text s ((s.insertKey k).allowKey false) :=
      (insertKey_keeps s k).trans (allowKey_keeps _ false)
    exact hkeeps.moves (emitChars_moves _ .value trivial 0)
  · split
    · exact Reads.fail _ _ _
    · exact indicator_reads s .blockMappingStart trivial .value trivial _

theorem lexName_reads {kind : String → TokenKind} (hkind : ∀ name, (kind name).IsOf text) :
    Reads text (Moves text s) (s.lexName kind) := by
  unfold lexName
  refine Reads.bind (markKey_reads s) ?_
  intro s1 h1
  refine Reads.bind (readName_reads s1.cursor) ?_
  rintro ⟨name, behind⟩ hbehind
  exact (h1.trans (allowKey_keeps s1 false)).moves (emit_moves _ _ (hkind name) hbehind)

theorem lexTag_reads (hs : s.cursor.rest <:+ text) : Reads text (Moves text s) s.lexTag := by
  unfold lexTag
  refine Reads.bind (markKey_reads s) ?_
  intro s1 h1
  have hcursor : s1.cursor.rest <:+ text := by rwa [h1.cursor]
  refine Reads.bind (readTag_reads s1.version s1.cursor hcursor) ?_
  rintro ⟨kind, behind⟩ ⟨hbehind, hkind⟩
  exact (h1.trans (allowKey_keeps s1 false)).moves (emit_moves _ kind hkind hbehind)

theorem lexBlockScalar_reads : Reads text (Moves text s) s.lexBlockScalar := by
  unfold lexBlockScalar
  refine Reads.bind (dropKey_reads _) ?_
  intro s1 h1
  refine Reads.bind (readBlockScalar_reads s1.indent s1.cursor) ?_
  rintro ⟨chars, stop, behind⟩ hbehind
  have hscalar : (TokenKind.scalar (.ofChars chars) false).IsOf text := trivial
  exact ((allowKey_keeps s true).trans h1).moves ⟨hbehind, rfl, fun _ => mem_emit hscalar⟩

theorem lexQuoted_reads (hs : s.cursor.rest <:+ text) : Reads text (Moves text s) s.lexQuoted := by
  unfold lexQuoted
  refine Reads.bind (markKey_reads s) ?_
  intro s1 h1
  have hcursor : s1.cursor.rest <:+ text := by rwa [h1.cursor]
  refine Reads.bind (readQuoted_reads s1.cursor hcursor) ?_
  rintro ⟨value, behind⟩ hbehind
  exact (h1.trans (allowKey_keeps s1 false)).moves
    (emit_moves _ (.scalar value false) trivial hbehind)

theorem lexPlain_reads (hword : plainWord s.version s.inFlow s.cursor.rest ≠ [])
    (hcomment : s.cursor.peek 0 ≠ '#') : Reads text (Moves text s) s.lexPlain := by
  unfold lexPlain
  refine Reads.bind (markKey_reads s) ?_
  intro s1 h1
  have hflow : s1.inFlow = s.inFlow := by rw [inFlow, inFlow, h1.flow]
  rw [← h1.version, ← hflow, ← h1.cursor] at hword
  rw [← h1.cursor] at hcomment
  let p := readPlain s1.version s1.inFlow s1.indent s1.cursor
  have hscalar : (TokenKind.scalar (.ofChars p.text) true).IsOf text := trivial
  exact h1.moves ⟨readPlain_suffix s1.indent hword hcomment, rfl, fun _ => mem_emit hscalar⟩

/-! ### one step -/

/-- A character that is not special goes into a plain word. -/
theorem plainWord_of_not_special {v : Version} {inFlow : Bool} {ch : Char} {rest : List Char}
    (h : isSpecial ch = false) : plainWord v inFlow (ch :: rest) ≠ [] := by
  have hblank : isStopOrBlank ch = false := (Bool.or_eq_false_iff.mp h).1
  have hnot : ∀ c ∈ "-?:,[]\x7b\x7d#&*!|>'\"%@\x60".toList, ch ≠ c := by
    rintro c hc rfl
    have := (Bool.or_eq_false_iff.mp h).2
    rw [List.contains_iff_mem.mpr hc] at this
    cases this
  have hcolon : ch ≠ ':' := hnot ':' (by decide)
  have hquestion : ch ≠ '?' := hnot '?' (by decide)
  have hflow : ",:?[]\x7b\x7d".toList.contains ch = false := by
    rw [Bool.eq_false_iff, ne_eq, List.contains_iff_mem]
    intro hmem
    have hsub : ∀ c ∈ ",:?[]\x7b\x7d".toList, c ∈ "-?:,[]\x7b\x7d#&*!|>'\"%@\x60".toList := by
      simp
    exact hnot ch (hsub ch hmem) rfl
  rw [plainWord, if_neg (by simp [hcolon]), if_neg (by simp [hquestion]),
    if_neg (by rw [hblank, hflow]; simp [hcolon])]
  exact List.cons_ne_nil _ _

/-- Where a plain scalar begins and no value does, it has a first word. -/
theorem plainWord_ne_nil (hrest : s.cursor.rest ≠ []) (hplain : s.isPlain = true)
    (hvalue : ¬ (s.cursor.peek 0 == ':' && s.isValue) = true) :
    plainWord s.version s.inFlow s.cursor.rest ≠ [] ∧ s.cursor.peek 0 ≠ '#' := by
  obtain ⟨ch, rest, hcons⟩ := List.exists_cons_of_ne_nil hrest
  have h0 : s.cursor.peek 0 = ch := by rw [peek, hcons]; rfl
  have h1 : s.cursor.peek 1 = rest.headD finis := by
    rw [peek, hcons]
    cases rest <;> rfl
  rw [h0] at hvalue ⊢
  rw [isPlain, h0, h1] at hplain
  rw [hcons]
  cases hspecial : isSpecial ch with
  | false =>
    refine ⟨plainWord_of_not_special hspecial, ?_⟩
    rintro rfl
    exact absurd hspecial (by decide)
  | true =>
    by_cases hcolon : ch = ':'
    · -- what follows the colon is no blank, or it would stand in front of a value
      have hnext : isStopOrBlank (rest.headD finis) = false := by
        rw [← h1, Bool.eq_false_iff]
        intro hblank
        exact hvalue (by simp [hcolon, isValue, hblank])
      rw [plainWord, if_pos (by rw [hnext, hcolon]; rfl)]
      exact ⟨List.cons_ne_nil _ _, by rw [hcolon]; decide⟩
    · simp only [hspecial, hcolon, Bool.not_true, Bool.false_or, Bool.and_eq_true, Bool.or_eq_true,
        beq_iff_eq, Bool.not_eq_true', or_false, and_false, false_and] at hplain
      obtain ⟨-, rfl | ⟨hflow, rfl⟩⟩ := hplain
      · rw [plainWord, if_neg (by simp), if_neg (by simp), if_neg (by cases s.inFlow <;> decide)]
        exact ⟨List.cons_ne_nil _ _, by decide⟩
      · refine ⟨?_, by decide⟩
        rw [plainWord, if_neg (by simp), hflow]
        split
        · exact List.cons_ne_nil _ _
        · rw [if_neg (by decide)]
          exact List.cons_ne_nil _ _

/-- The next token stops or moves, and the text ends only where nothing is left. -/
theorem dispatch_reads (hs : s.cursor.rest <:+ text) :
    Reads text (fun s' => Ends text s s' ∨ s.cursor.rest ≠ [] ∧ Moves text s s') s.dispatch := by
  rw [dispatch]
  refine .ite (fun _ => (lexEnd_reads s).mono fun _ => .inl) fun hrest => ?_
  rw [List.isEmpty_iff] at hrest
  have hmoves : ∀ {x}, Reads text (Moves text s) x →
      Reads text (fun s' => Ends text s s' ∨ s.cursor.rest ≠ [] ∧ Moves text s s') x :=
    fun hx => hx.mono fun _ h => .inr ⟨hrest, h⟩
  refine .ite (fun h => hmoves (lexDirective_reads s hs ?_)) fun _ => ?_
  · rw [Bool.and_eq_true, beq_iff_eq] at h
    exact hs.subset (mem_of_peek h.1 (by decide))
  refine .ite (fun _ => hmoves (lexMarker_reads s .documentStart trivial)) fun _ => ?_
  refine .ite (fun _ => hmoves (lexMarker_reads s .documentEnd trivial)) fun _ => ?_
  refine .ite (fun _ => hmoves (lexFlowStart_reads s .flowSequenceStart trivial _)) fun _ => ?_
  refine .ite (fun _ => hmoves (lexFlowStart_reads s .flowMappingStart trivial _)) fun _ => ?_
  refine .ite (fun _ => hmoves (lexFlowEnd_reads s .flowSequenceEnd trivial)) fun _ => ?_
  refine .ite (fun _ => hmoves (lexFlowEnd_reads s .flowMappingEnd trivial)) fun _ => ?_
  refine .ite (fun _ => hmoves (lexFlowEntry_reads s)) fun _ => ?_
  refine .ite (fun _ => hmoves (lexBlockEntry_reads s)) fun _ => ?_
  refine .ite (fun _ => hmoves (lexKey_reads s)) fun _ => ?_
  refine .ite (fun _ => hmoves (lexValue_reads s)) fun hvalue => ?_
  refine .ite (fun _ => hmoves (lexName_reads s fun _ => trivial)) fun _ => ?_
  refine .ite (fun _ => hmoves (lexName_reads s fun _ => trivial)) fun _ => ?_
  refine .ite (fun _ => hmoves (lexTag_reads s hs)) fun _ => ?_
  refine .ite (fun _ => hmoves (lexBlockScalar_reads s)) fun _ => ?_
  refine .ite (fun _ => hmoves (lexQuoted_reads s hs)) fun _ => ?_
  refine .ite (fun hplain => hmoves ?_) fun _ => Reads.refuse _ _ _
  have hword := plainWord_ne_nil s hrest hplain hvalue
  exact lexPlain_reads s hword.1 hword.2

/-- A lexer in a text, with tokens that the text may have in its queue. -/
structure Sound (text : List Char) (s : Lexer) : Prop where
  cursor : s.cursor.rest <:+ text
  queue : ∀ t ∈ s.queue, t.kind.IsOf text

theorem Sound.of_queue {s' : Lexer} (h : s.Sound text) (hcursor : s'.cursor.rest <:+ s.cursor.rest)
    (hqueue : ∀ t ∈ s'.queue, t ∈ s.queue ∨ t.kind.IsOf text) : s'.Sound text := by
  refine ⟨hcursor.trans h.cursor, fun t ht => ?_⟩
  rcases hqueue t ht with hold | hnew
  · exact h.queue t hold
  · exact hnew

/-- The text has ended and the queue says so, or less of it is left. -/
def Progress (s s' : Lexer) : Prop :=
  (s'.finished = true ∧ ∃ t ∈ s'.queue, t.kind = .streamEnd)
    ∨ s'.finished = s.finished ∧ s'.cursor.rest.length < s.cursor.rest.length

/-- A step stops for a reason in the text, ends it, or moves. -/
theorem step_reads (h : s.Sound text) :
    Reads text (fun s' => s'.Sound text ∧ Progress s s') s.step := by
  have hgap : s.skipGap.cursor.rest <:+ s.cursor.rest := skipGap_suffix _ _
  unfold step
  refine Reads.bind (dropExpired_reads s.skipGap) ?_
  intro s1 h1
  have hkeeps := h1.trans (unwind_keeps s1 s1.column)
  have hcursor : (s1.unwind s1.column).cursor.rest <:+ s.cursor.rest := by
    rw [hkeeps.cursor]
    exact hgap
  refine (dispatch_reads _ (hcursor.trans h.cursor)).mono ?_
  rintro s2 (h2 | ⟨hrest, h2⟩)
  · have hall := hkeeps.ends h2
    refine ⟨h.of_queue s ?_ hall.queue, .inl ⟨hall.finished, hall.stop⟩⟩
    rw [hall.cursor]
    exact hgap
  · have hall := hkeeps.moves h2
    have htail := hall.cursor.length_le
    have hlength := hgap.length_le
    rw [hkeeps.cursor, ← List.length_pos_iff] at hrest
    rw [List.length_tail] at htail
    exact ⟨h.of_queue s (hall.cursor.trans ((List.tail_suffix _).trans hgap)) hall.queue,
      .inr ⟨hall.finished, by omega⟩⟩

/-- Giving up expired places changes neither cursor nor queue. -/
theorem refresh_reads :
    Reads text (fun s' => s'.cursor = s.cursor ∧ s'.queue = s.queue ∧ s'.finished = s.finished)
      s.refresh := by
  unfold refresh
  split
  · exact ⟨rfl, rfl, rfl⟩
  · exact Reads.bind (fails_reads s _) fun _ _ => ⟨rfl, rfl, rfl⟩

theorem step_refresh_reads (h : s.Sound text) :
    Reads text (fun s' => s'.Sound text ∧ Progress s s') (s.step >>= refresh) := by
  refine Reads.bind (step_reads s h) ?_
  rintro s1 ⟨⟨hcursor1, hqueue1⟩, hprogress⟩
  refine (refresh_reads s1).mono ?_
  rintro s2 ⟨hcursor, hqueue, hfinished⟩
  rw [Progress, hcursor, hqueue, hfinished]
  exact ⟨⟨hcursor ▸ hcursor1, hqueue ▸ hqueue1⟩, hprogress⟩

end

/-! ### all steps -/

/-- Handing out tokens takes them from the queue, all of them at the end of the text. -/
theorem release_spec (s : Lexer) (queue : List Token) :
    let out := s.release queue
    out.2.cursor = s.cursor ∧ out.2.finished = s.finished
      ∧ (∀ t ∈ out.2.queue, t ∈ queue) ∧ (∀ t ∈ out.1, t.token ∈ queue)
      ∧ (s.finished = true → ∀ t ∈ queue, ∃ r ∈ out.1, r.token = t) := by
  induction queue generalizing s with
  | nil => exact ⟨rfl, rfl, nofun, nofun, nofun⟩
  | cons token queue ih =>
    rw [release]
    split
    · rename_i hheld
      refine ⟨rfl, rfl, fun _ h => h, nofun, fun hfinished => ?_⟩
      simp [hfinished] at hheld
    · obtain ⟨hcursor, hfinished, hqueue, hready, hall⟩ := ih { s with taken := s.taken + 1 }
      refine ⟨hcursor, hfinished, fun t ht => List.mem_cons_of_mem _ (hqueue t ht), ?_, ?_⟩
      · rintro t (_ | ⟨_, ht⟩)
        · exact List.mem_cons_self
        · exact List.mem_cons_of_mem _ (hready t ht)
      · rintro hend t (_ | ⟨_, ht⟩)
        · exact ⟨_, List.mem_cons_self, rfl⟩
        · obtain ⟨r, hr, heq⟩ := hall hend t ht
          exact ⟨r, List.mem_cons_of_mem _ hr, heq⟩

theorem lexFrom_succ (fuel : Nat) (s : Lexer) :
    s.lexFrom (fuel + 1)
      = match s.step >>= refresh with
        | .error h => ⟨[], some h⟩
        | .ok s =>
          let (ready, s) := s.release s.queue
          if s.finished then ⟨ready, none⟩
          else
            let more := lexFrom fuel s
            { more with tokens := ready ++ more.tokens } := (rfl)

/-- More steps than characters go up to the end of a text that nothing stops. -/
theorem lexFrom_isOf {text : List Char} (fuel : Nat) (s : Lexer) (h : s.Sound text)
    (hfinished : s.finished = false) (hfuel : s.cursor.rest.length < fuel) :
    (s.lexFrom fuel).IsOf text := by
  induction fuel generalizing s with
  | zero => omega
  | succ fuel ih =>
    have hstep := step_refresh_reads s h
    rw [lexFrom_succ]
    generalize s.step >>= refresh = result at hstep
    cases result with
    | error halt =>
      refine ⟨nofun, ?_, nofun⟩
      rintro _ ⟨⟩
      exact hstep
    | ok s1 =>
      obtain ⟨hsound, hprogress⟩ := hstep
      obtain ⟨hcursor, hsame, hqueue, hready, hall⟩ := release_spec s1 s1.queue
      have htokens : ∀ t ∈ (s1.release s1.queue).1, t.token.kind.IsOf text :=
        fun t ht => hsound.queue _ (hready t ht)
      simp only
      rcases hprogress with ⟨hdone, t, ht, hkind⟩ | ⟨hopen, hlength⟩
      · rw [if_pos (hsame.trans hdone)]
        obtain ⟨r, hr, rfl⟩ := hall hdone t ht
        exact ⟨htokens, nofun, fun _ => ⟨r, hr, hkind⟩⟩
      · rw [hfinished] at hopen
        rw [if_neg (by rw [hsame, hopen]; decide)]
        have hmore := ih (s1.release s1.queue).2
          ⟨hcursor ▸ hsound.cursor, fun t ht => hsound.queue t (hqueue t ht)⟩
          (hsame.trans hopen) (by rw [hcursor]; omega)
        refine ⟨fun t ht => ?_, hmore.halt, fun hnone => ?_⟩
        · rcases List.mem_append.mp ht with ht | ht
          · exact htokens t ht
          · exact hmore.tokens t ht
        · obtain ⟨t, ht, hkind⟩ := hmore.stop hnone
          exact ⟨t, List.mem_append_right _ ht, hkind⟩

end Lexer

theorem lex_isOf (text : List Char) : (lex text).IsOf text :=
  Lexer.lexFrom_isOf _ _ ⟨List.suffix_rfl, nofun⟩ rfl (by
    show text.length < _
    omega)

end YamlSpan
