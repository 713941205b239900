import YamlSpan.Proofs.ExtendedScalars
import YamlSpan.Proofs.Lexing

/-!
# Tokens of a text that goes on

The lexer of a text and the one of a text that goes on take the same steps up to the end of the
first text.  There the first ends its stream.  The second finds a marker and starts a document, but
closes the same collections before, so the tokens that are handed out are the same.

* `Lexer.Same`           two lexers that differ in what follows the text
* `Ahead`                the tokens that two such lexers hand out
* `dispatch_extend`      which token comes next, and what it is
* `step_extend`          one step inside of the text
* `step_end`             one step at its end
* `Lexer.getsToBareBlock`   the lexer gets to a block scalar that takes in what follows
* `lex_extend`           all tokens
-/

namespace YamlSpan

open Cursor

/-- A token inside of the text.  A marker that ends a document is on an earlier line than the end of
the text. -/
structure Token.InText (front : List Char) (t : Token) : Prop where
  start : t.start.index ≤ front.length
  stop : t.stop.index ≤ front.length
  line : t.kind = .documentEnd → t.stop.line < (Cursor.start front).last.line

/-- The tokens ahead in a text and in one that goes on.  They are the same up to the end of the
first text, where the second has a marker, or up to where something stops the first. -/
inductive Ahead (front : List Char) : List ReadyToken → List ReadyToken → Prop where
  | stop (more : List ReadyToken) : Ahead front [] more
  | last (stop : Mark) (version : Version) (more : List ReadyToken) :
    Ahead front [⟨⟨.streamEnd, (Cursor.start front).last, (Cursor.start front).last⟩, version⟩]
      (⟨⟨.documentStart, (Cursor.start front).last, stop⟩, version⟩ :: more)
  | cons {t : ReadyToken} {tokens tokens' : List ReadyToken} (ht : t.token.InText front)
      (h : Ahead front tokens tokens') : Ahead front (t :: tokens) (t :: tokens')

theorem Ahead.append {front : List Char} {ready tokens tokens' : List ReadyToken}
    (hready : ∀ t ∈ ready, t.token.InText front) (h : Ahead front tokens tokens') :
    Ahead front (ready ++ tokens) (ready ++ tokens') := by
  induction ready with
  | nil => exact h
  | cons t ready ih =>
    obtain ⟨ht, hrest⟩ := List.forall_mem_cons.mp hready
    exact .cons ht (ih hrest)

namespace Lexer

/-- The lexer in a text that goes on. -/
def extend (s : Lexer) (back : List Char) : Lexer := { s with cursor := s.cursor.extend back }

@[simp] theorem extend_cursor (s : Lexer) (back : List Char) :
    (s.extend back).cursor = s.cursor.extend back := rfl

@[simp] theorem extend_inFlow (s : Lexer) (back : List Char) :
    (s.extend back).inFlow = s.inFlow := rfl

/-- A lexer inside of the text: so are its tokens, and a key may begin only on a line that ends
there. -/
structure Placed (front : List Char) (s : Lexer) : Prop where
  cursor : s.cursor.Within front
  queue : ∀ t ∈ s.queue, t.InText front
  keys : ∀ k ∈ s.keyPlaces, k.mark.index ≤ front.length
    ∧ k.mark.line < (Cursor.start front).last.line
  indent : -1 ≤ s.indent
  indents : ∀ i ∈ s.indents, -1 ≤ i
  finished : s.finished = false

/-- The same state in the text that goes on. -/
def Same (front back : List Char) (s s' : Lexer) : Prop := s.Placed front ∧ s' = s.extend back

section
variable {front back : List Char} {s : Lexer}

/-! ### what reads nothing -/

theorem Placed.allowKey (hs : s.Placed front) (allowed : Bool) :
    (s.allowKey allowed).Placed front :=
  ⟨hs.cursor, hs.queue, hs.keys, hs.indent, hs.indents, hs.finished⟩

theorem unwind_extend (s : Lexer) (back : List Char) (column : Int) :
    (s.extend back).unwind column = (s.unwind column).extend back := by
  unfold unwind
  show (if s.inFlow then _ else _) = _
  split <;> rfl

theorem unwind_cursor (s : Lexer) (column : Int) : (s.unwind column).cursor = s.cursor :=
  (@unwind_keeps [] s column).cursor

theorem unwindTo_indents (column : Int) (closing : Token) {indent : Int} {indents : List Int}
    (hindent : -1 ≤ indent) (hindents : ∀ i ∈ indents, -1 ≤ i) :
    -1 ≤ (unwindTo column closing indent indents).2.1
      ∧ ∀ i ∈ (unwindTo column closing indent indents).2.2, -1 ≤ i := by
  induction indents generalizing indent with
  | nil => exact ⟨hindent, List.forall_mem_nil _⟩
  | cons outer indents ih =>
    obtain ⟨houter, hrest⟩ := List.forall_mem_cons.mp hindents
    rw [unwindTo]
    split
    · exact ih houter hrest
    · exact ⟨hindent, hindents⟩

theorem Placed.unwind (hs : s.Placed front) (column : Int) : (s.unwind column).Placed front := by
  unfold Lexer.unwind
  split
  · exact hs
  · obtain ⟨hindent, hindents⟩ := unwindTo_indents column ⟨.blockEnd, s.cursor.mark, s.cursor.mark⟩
      hs.indent hs.indents
    refine ⟨hs.cursor, List.forall_mem_append.mpr ⟨hs.queue, fun t ht => ?_⟩, hs.keys, hindent,
      hindents, hs.finished⟩
    rw [mem_unwindTo ht]
    exact ⟨hs.cursor.index_le, hs.cursor.index_le, nofun⟩

theorem indentTo_extend (s : Lexer) (back : List Char) (column : Int) (kind : TokenKind)
    (mark : Mark) (place : Nat) :
    (s.extend back).indentTo column kind mark place
      = (s.indentTo column kind mark place).extend back := by
  unfold indentTo
  show (if !s.inFlow && s.indent < column then _ else _) = _
  split <;> rfl

theorem indentTo_cursor (s : Lexer) (column : Int) (kind : TokenKind) (mark : Mark)
    (place : Nat) : (s.indentTo column kind mark place).cursor = s.cursor := by
  unfold indentTo
  split <;> rfl

theorem Placed.indentTo (hs : s.Placed front) {column : Int} (hcolumn : -1 ≤ column)
    {kind : TokenKind} (hkind : kind ≠ .documentEnd) {mark : Mark}
    (hmark : mark.index ≤ front.length) (place : Nat) :
    (s.indentTo column kind mark place).Placed front := by
  unfold Lexer.indentTo
  split
  · refine ⟨hs.cursor, fun t ht => ?_, hs.keys, hcolumn,
      List.forall_mem_cons.mpr ⟨hs.indent, hs.indents⟩, hs.finished⟩
    rcases eq_or_mem_of_mem_insertIdx ht with rfl | hold
    · exact ⟨hmark, hmark, fun heq => absurd heq hkind⟩
    · exact hs.queue t hold
  · exact hs

theorem Placed.insertKey (hs : s.Placed front) {k : KeyPlace} (hk : k ∈ s.keyPlaces) :
    (s.insertKey k).Placed front := by
  have hmark := (hs.keys k hk).1
  have hcolumn : -1 ≤ (k.mark.column : Int) := by omega
  refine Placed.indentTo ?_ hcolumn (show TokenKind.blockMappingStart ≠ .documentEnd from nofun)
    hmark _
  refine ⟨hs.cursor, fun t ht => ?_, fun k' hk' => hs.keys k' ((List.mem_filter.mp hk').1),
    hs.indent, hs.indents, hs.finished⟩
  rcases eq_or_mem_of_mem_insertIdx ht with rfl | hold
  · exact ⟨hmark, hmark, nofun⟩
  · exact hs.queue t hold

theorem insertKey_extend (s : Lexer) (back : List Char) (k : KeyPlace) :
    (s.extend back).insertKey k = (s.insertKey k).extend back := by
  unfold insertKey
  rw [← indentTo_extend]
  rfl

/-- Nothing is read, and no block begins or ends. -/
structure Stays (s s1 : Lexer) : Prop where
  cursor : s1.cursor = s.cursor
  version : s1.version = s.version
  flow : s1.flow = s.flow
  indent : s1.indent = s.indent

/-- Only the places of keys change, and in both texts alike. -/
def SameBut (front back : List Char) (s s1 s1' : Lexer) : Prop :=
  s.Stays s1 ∧ Same front back s1 s1'

theorem dropKeys_extend (hs : s.Placed front) (dropped : List KeyPlace) (kept : KeyPlace → Bool) :
    Tracks (SameBut front back s)
      (s.fails dropped >>= fun _ => pure { s with keyPlaces := s.keyPlaces.filter kept })
      ((s.extend back).fails dropped >>= fun _ =>
        pure { s.extend back with keyPlaces := s.keyPlaces.filter kept }) := by
  unfold fails
  split
  · exact Tracks.error
  · have hkeys : ∀ k ∈ s.keyPlaces.filter kept, k.mark.index ≤ front.length
        ∧ k.mark.line < (Cursor.start front).last.line :=
      fun k hk => hs.keys k (List.mem_filter.mp hk).1
    exact .ok ⟨⟨rfl, rfl, rfl, rfl⟩,
      ⟨hs.cursor, hs.queue, hkeys, hs.indent, hs.indents, hs.finished⟩, rfl⟩

theorem dropExpired_extend (hs : s.Placed front) :
    Tracks (SameBut front back s) s.dropExpired (s.extend back).dropExpired :=
  dropKeys_extend hs _ _

theorem dropKey_extend (hs : s.Placed front) :
    Tracks (SameBut front back s) s.dropKey (s.extend back).dropKey :=
  dropKeys_extend hs _ _

/-- A key may begin where something is left of a line. -/
theorem markKey_extend (h : Continues front back) (hs : s.Placed front)
    (hinside : s.cursor.Inside front) :
    Tracks (SameBut front back s) s.markKey (s.extend back).markKey := by
  unfold markKey
  show Tracks _ _ (if s.keyAllowed then _ else _)
  refine .ite (fun _ => ?_) fun _ => .ok ⟨⟨rfl, rfl, rfl, rfl⟩, hs, rfl⟩
  refine .bind (dropKey_extend hs) ?_
  rintro s1 _ ⟨h1, hs1, rfl⟩
  refine .ok ⟨⟨h1.cursor, h1.version, h1.flow, h1.indent⟩,
    ⟨hs1.cursor, hs1.queue, ?_, hs1.indent, hs1.indents, hs1.finished⟩, rfl⟩
  refine List.forall_mem_append.mpr ⟨hs1.keys, ?_⟩
  rintro _ (_ | ⟨_, ⟨⟩⟩)
  rw [← h1.cursor] at hinside
  exact ⟨hinside.within.index_le, hinside.line h⟩

/-- A block scalar without a fixed indentation, outside of everything. -/
def isAtBareBlock (s : Lexer) : Bool :=
  !s.inFlow && (s.cursor.peek 0 == '|' || s.cursor.peek 0 == '>') && isBareBlock s.indent s.cursor

/-! ### what reads -/

theorem Placed.emit (hs : s.Placed front) {behind : Cursor} (hbehind : behind.Within front)
    {kind : TokenKind}
    (hline : kind = .documentEnd → behind.mark.line < (Cursor.start front).last.line) :
    (s.emit kind behind).Placed front := by
  refine ⟨hbehind, List.forall_mem_append.mpr ⟨hs.queue, ?_⟩, hs.keys, hs.indent, hs.indents,
    hs.finished⟩
  rintro _ (_ | ⟨_, ⟨⟩⟩)
  exact ⟨hs.cursor.index_le, hbehind.index_le, hline⟩

theorem Same.emit {s' : Lexer} (hs : Same front back s s') {behind : Cursor}
    (hbehind : behind.Within front) {kind : TokenKind} (hkind : kind ≠ .documentEnd) :
    Same front back (s.emit kind behind) (s'.emit kind (behind.extend back)) := by
  obtain ⟨hs, rfl⟩ := hs
  exact ⟨hs.emit hbehind fun heq => absurd heq hkind, rfl⟩

/-- A token over one character of a line. -/
theorem Same.emitChar (h : Continues front back) {s' : Lexer} (hs : Same front back s s')
    (hne : s.cursor.rest ≠ []) {kind : TokenKind} (hkind : kind ≠ .documentEnd) :
    Same front back (s.emitChars kind 1) (s'.emitChars kind 1) := by
  obtain ⟨hs, rfl⟩ := hs
  refine ⟨hs.emit (hs.cursor.forward 1) fun heq => absurd heq hkind, ?_⟩
  show (s.extend back).emit kind ((s.cursor.extend back).advance) = _
  rw [advance_extend h hne]
  rfl

end

section
variable {front back : List Char} (h : Continues front back) {s : Lexer} (hs : s.Placed front)
  (hinside : s.cursor.Inside front)
include h hs hinside

theorem lexDirective_extend (hpercent : s.cursor.peek 0 = '%') :
    Tracks (Same front back) s.lexDirective (s.extend back).lexDirective := by
  unfold lexDirective
  rw [unwind_extend]
  refine .bind (dropKey_extend (hs.unwind (-1))) ?_
  rintro s1 _ ⟨h1, hs1, rfl⟩
  have hcursor : s1.cursor = s.cursor := h1.cursor.trans (unwind_cursor s (-1))
  rw [← hcursor] at hinside hpercent
  refine .bind (readDirective_extend h s1.version hinside hpercent) ?_
  rintro ⟨directive, behind⟩ _ ⟨hbehind, rfl⟩
  have hemit : ((s1.allowKey false).emit (.directive directive) behind).Placed front :=
    (hs1.allowKey false).emit hbehind nofun
  cases directive with
  | version v =>
    exact .ok ⟨⟨hemit.cursor, hemit.queue, hemit.keys, hemit.indent, hemit.indents,
      hemit.finished⟩, rfl⟩
  | handle handle expansion => exact .ok ⟨hemit, rfl⟩
  | other => exact .ok ⟨hemit, rfl⟩

omit hinside in
theorem lexMarker_extend (kind : TokenKind) (hthree : (s.cursor.forward 3).Inside front) :
    Tracks (Same front back) (s.lexMarker kind) ((s.extend back).lexMarker kind) := by
  unfold lexMarker
  rw [unwind_extend]
  refine .bind (dropKey_extend (hs.unwind (-1))) ?_
  rintro s1 _ ⟨h1, hs1, rfl⟩
  have hcursor : s1.cursor = s.cursor := h1.cursor.trans (unwind_cursor s (-1))
  rw [← hcursor] at hthree
  refine .ok ⟨(hs1.allowKey false).emit hthree.within fun _ => hthree.line h, ?_⟩
  show ((s1.allowKey false).extend back).emit kind ((s1.cursor.extend back).forward 3) = _
  rw [hthree.forward_extend h]
  rfl

theorem lexFlowStart_extend (kind : TokenKind) (hkind : kind ≠ .documentEnd) (flow : FlowKind) :
    Tracks (Same front back) (s.lexFlowStart kind flow)
      ((s.extend back).lexFlowStart kind flow) := by
  unfold lexFlowStart
  refine .bind (markKey_extend h hs hinside) ?_
  rintro s1 _ ⟨h1, hs1, rfl⟩
  have hopen : ({ s1 with flow := flow :: s1.flow }.allowKey true).Placed front :=
    ⟨hs1.cursor, hs1.queue, hs1.keys, hs1.indent, hs1.indents, hs1.finished⟩
  exact .ok (Same.emitChar h ⟨hopen, rfl⟩ (h1.cursor ▸ hinside.ne_nil) hkind)

theorem lexFlowEnd_extend (kind : TokenKind) (hkind : kind ≠ .documentEnd) :
    Tracks (Same front back) (s.lexFlowEnd kind) ((s.extend back).lexFlowEnd kind) := by
  unfold lexFlowEnd
  refine .bind (dropKey_extend hs) ?_
  rintro s1 _ ⟨h1, hs1, rfl⟩
  have hclosed : ({ s1 with flow := s1.flow.tail }.allowKey false).Placed front :=
    ⟨hs1.cursor, hs1.queue, hs1.keys, hs1.indent, hs1.indents, hs1.finished⟩
  exact .ok (Same.emitChar h ⟨hclosed, rfl⟩ (h1.cursor ▸ hinside.ne_nil) hkind)

theorem lexFlowEntry_extend :
    Tracks (Same front back) s.lexFlowEntry (s.extend back).lexFlowEntry := by
  unfold lexFlowEntry
  refine .bind (dropKey_extend (hs.allowKey true)) ?_
  rintro s1 _ ⟨h1, hs1, rfl⟩
  exact .ok (Same.emitChar h ⟨hs1, rfl⟩ (h1.cursor ▸ hinside.ne_nil) nofun)

/-- What `-`, `?` and `:` have in common. -/
theorem indicator_extend (start kind : TokenKind) (hstart : start ≠ .documentEnd)
    (hkind : kind ≠ .documentEnd) (allowed : Lexer → Bool)
    (hallowed : ∀ s : Lexer, allowed (s.extend back) = allowed s) :
    Tracks (Same front back)
      (let s := s.indentTo s.column start s.cursor.mark s.queue.length
       (s.allowKey (allowed s)).dropKey >>= fun s1 => pure (s1.emitChars kind 1))
      (let s := (s.extend back).indentTo s.column start s.cursor.mark s.queue.length
       (s.allowKey (allowed s)).dropKey >>= fun s1 => pure (s1.emitChars kind 1)) := by
  have hcolumn : -1 ≤ s.column := by
    unfold column
    omega
  have hindent := hs.indentTo hcolumn hstart hs.cursor.index_le s.queue.length
  simp only [indentTo_extend, hallowed]
  refine .bind (dropKey_extend (hindent.allowKey _)) ?_
  rintro s1 _ ⟨h1, hs1, rfl⟩
  have hcursor : s1.cursor = s.cursor := h1.cursor.trans (indentTo_cursor s _ _ _ _)
  exact .ok (Same.emitChar h ⟨hs1, rfl⟩ (hcursor ▸ hinside.ne_nil) hkind)

theorem lexBlockEntry_extend :
    Tracks (Same front back) s.lexBlockEntry (s.extend back).lexBlockEntry := by
  unfold lexBlockEntry
  exact .ite (fun _ => Tracks.error) fun _ =>
    indicator_extend h hs hinside .blockSequenceStart .blockEntry nofun nofun (fun _ => true)
      fun _ => rfl

theorem lexKey_extend : Tracks (Same front back) s.lexKey (s.extend back).lexKey := by
  unfold lexKey
  exact .ite (fun _ => Tracks.error) fun _ =>
    indicator_extend h hs hinside .blockMappingStart .key nofun nofun (fun s => !s.inFlow)
      fun _ => rfl

theorem lexValue_extend : Tracks (Same front back) s.lexValue (s.extend back).lexValue := by
  unfold lexValue
  have hplaces : (s.extend back).keyPlaces.find? (·.level == (s.extend back).level)
      = s.keyPlaces.find? (·.level == s.level) := rfl
  rw [hplaces]
  cases hk : s.keyPlaces.find? (·.level == s.level) with
  | some k =>
    have hcursor : (s.insertKey k).cursor = s.cursor := indentTo_cursor _ _ _ _ _
    have hkey := (hs.insertKey (List.mem_of_find?_eq_some hk)).allowKey false
    simp only [insertKey_extend]
    exact .ok (Same.emitChar h ⟨hkey, rfl⟩ (hcursor ▸ hinside.ne_nil) nofun)
  | none =>
    exact .ite (fun _ => Tracks.error) fun _ =>
      indicator_extend h hs hinside .blockMappingStart .value nofun nofun (fun s => !s.inFlow)
        fun _ => rfl

theorem lexName_extend {kind : String → TokenKind} (hkind : ∀ name, kind name ≠ .documentEnd)
    (hname : s.cursor.advance.Inside front) :
    Tracks (Same front back) (s.lexName kind) ((s.extend back).lexName kind) := by
  unfold lexName
  refine .bind (markKey_extend h hs hinside) ?_
  rintro s1 _ ⟨h1, hs1, rfl⟩
  rw [← h1.cursor] at hname hinside
  refine .bind (readName_extend h hname hinside.ne_nil) ?_
  rintro ⟨name, behind⟩ _ ⟨hbehind, rfl⟩
  exact .ok (Same.emit ⟨hs1.allowKey false, rfl⟩ hbehind.within (hkind name))

theorem lexTag_extend (hmark : s.cursor.peek 0 = '!') :
    Tracks (Same front back) s.lexTag (s.extend back).lexTag := by
  unfold lexTag
  refine .bind (markKey_extend h hs hinside) ?_
  rintro s1 _ ⟨h1, hs1, rfl⟩
  rw [← h1.cursor] at hmark hinside
  refine .bind (readTag_extend h s1.version hinside hmark) ?_
  rintro ⟨kind, behind⟩ _ ⟨hbehind, rfl⟩
  exact .ok ⟨(hs1.allowKey false).emit hbehind.within fun _ => hbehind.line h, rfl⟩

theorem lexBlockScalar_extend (hmark : s.cursor.peek 0 = '|' ∨ s.cursor.peek 0 = '>')
    (hbare : isBareBlock s.indent s.cursor = false) :
    Tracks (Same front back) s.lexBlockScalar (s.extend back).lexBlockScalar := by
  unfold lexBlockScalar
  refine .bind (dropKey_extend (hs.allowKey true)) ?_
  rintro s1 _ ⟨h1, hs1, rfl⟩
  have hcursor : s1.cursor = s.cursor := h1.cursor
  have hindent : s1.indent = s.indent := h1.indent
  rw [← hcursor] at hmark hinside
  rw [← hcursor, ← hindent] at hbare
  refine .bind (readBlockScalar_extend h hs1.indent hinside hmark hbare) ?_
  rintro ⟨text, stop, behind⟩ _ ⟨hbehind, hstop, rfl⟩
  refine .ok ⟨⟨hbehind, List.forall_mem_append.mpr ⟨hs1.queue, ?_⟩, hs1.keys, hs1.indent,
    hs1.indents, hs1.finished⟩, rfl⟩
  rintro _ (_ | ⟨_, ⟨⟩⟩)
  exact ⟨hs1.cursor.index_le, hstop, nofun⟩

theorem lexQuoted_extend (hquote : s.cursor.peek 0 = '\'' ∨ s.cursor.peek 0 = '"') :
    Tracks (Same front back) s.lexQuoted (s.extend back).lexQuoted := by
  unfold lexQuoted
  refine .bind (markKey_extend h hs hinside) ?_
  rintro s1 _ ⟨h1, hs1, rfl⟩
  rw [← h1.cursor] at hquote hinside
  refine .bind (readQuoted_extend h hinside hquote) ?_
  rintro ⟨text, behind⟩ _ ⟨hbehind, rfl⟩
  exact .ok (Same.emit ⟨hs1.allowKey false, rfl⟩ hbehind.within nofun)

theorem lexPlain_extend : Tracks (Same front back) s.lexPlain (s.extend back).lexPlain := by
  unfold lexPlain
  refine .bind (markKey_extend h hs hinside) ?_
  rintro s1 _ ⟨h1, hs1, rfl⟩
  rw [← h1.cursor] at hinside
  obtain ⟨hplain, hcursor, hstop⟩ := readPlain_extend h s1.version s1.inFlow s1.indent hinside
  have hplain' : readPlain (s1.extend back).version (s1.extend back).inFlow (s1.extend back).indent
      (s1.extend back).cursor = _ := hplain
  simp only [hplain']
  refine .ok ⟨⟨hcursor, List.forall_mem_append.mpr ⟨hs1.queue, ?_⟩, hs1.keys, hs1.indent,
    hs1.indents, hs1.finished⟩, rfl⟩
  rintro _ (_ | ⟨_, ⟨⟩⟩)
  exact ⟨hs1.cursor.index_le, hstop, nofun⟩

/-! ### which token comes next -/

omit hs in
theorem isValue_extend :
    (s.cursor.peek 0 == ':' && (s.extend back).isValue)
      = (s.cursor.peek 0 == ':' && s.isValue) :=
  hinside.peek_and h (p := (· == ':')) (q := fun next => isStopOrBlank next || _) (by decide)

omit hs in
theorem isPlain_extend : (s.extend back).isPlain = s.isPlain := by
  unfold isPlain
  show (!isSpecial ((s.cursor.extend back).peek 0)
      || (!isStopOrBlank ((s.cursor.extend back).peek 1) && ((s.cursor.extend back).peek 0 == '-'
        || (!s.inFlow && ((s.cursor.extend back).peek 0 == '?'
          || (s.cursor.extend back).peek 0 == ':'))))
      || (s.version != .older && s.inFlow && (s.cursor.extend back).peek 0 == ':'
        && !isSpaceOrTab ((s.cursor.extend back).peek 1))) = _
  rw [hinside.peek_zero]
  by_cases hindicator : (s.cursor.peek 0 == '-' || s.cursor.peek 0 == '?'
      || s.cursor.peek 0 == ':') = true
  · have hnext := hinside.advance h (p := fun ch => ch == '-' || ch == '?' || ch == ':') (by decide)
      hindicator
    rw [Inside.peek (k := 1) hnext]
  · simp only [Bool.or_eq_true, not_or, Bool.not_eq_true] at hindicator
    simp only [hindicator, Bool.or_self, Bool.and_false, Bool.false_and]

/-- The next token is the same in both texts, unless it is a block scalar that goes on. -/
theorem dispatch_extend (hbare : s.isAtBareBlock = false) :
    Tracks (Same front back) s.dispatch (s.extend back).dispatch := by
  obtain ⟨hrest, hrest'⟩ := hinside.isEmpty back
  have hhyphen : InLine (· == '-') := by decide
  have hpoint : InLine (· == '.') := by decide
  have hentry := hinside.peek_and h (q := isStopOrBlank) hhyphen
  have hkey := hinside.peek_and h (p := (· == '?')) (q := fun ch => s.inFlow || isStopOrBlank ch)
    (by decide)
  unfold dispatch
  simp only [extend_cursor, extend_inFlow, extend_mark, hrest, hrest', Bool.false_eq_true, if_false,
    hentry, hkey, isValue_extend h hinside, isPlain_extend h hinside, hinside.isTriple h hhyphen,
    hinside.isTriple h hpoint, hinside.peek_zero]
  refine .ite (fun hpercent => lexDirective_extend h hs hinside ?_) fun _ => ?_
  · rw [Bool.and_eq_true, beq_iff_eq] at hpercent
    exact hpercent.1
  refine .ite (fun htriple => lexMarker_extend h hs .documentStart ?_) fun _ => ?_
  · rw [Bool.and_eq_true] at htriple
    exact hinside.forward_triple h hhyphen htriple.2
  refine .ite (fun htriple => lexMarker_extend h hs .documentEnd ?_) fun _ => ?_
  · rw [Bool.and_eq_true] at htriple
    exact hinside.forward_triple h hpoint htriple.2
  refine .ite (fun _ => lexFlowStart_extend h hs hinside .flowSequenceStart nofun _) fun _ => ?_
  refine .ite (fun _ => lexFlowStart_extend h hs hinside .flowMappingStart nofun _) fun _ => ?_
  refine .ite (fun _ => lexFlowEnd_extend h hs hinside .flowSequenceEnd nofun) fun _ => ?_
  refine .ite (fun _ => lexFlowEnd_extend h hs hinside .flowMappingEnd nofun) fun _ => ?_
  refine .ite (fun _ => lexFlowEntry_extend h hs hinside) fun _ => ?_
  refine .ite (fun _ => lexBlockEntry_extend h hs hinside) fun _ => ?_
  refine .ite (fun _ => lexKey_extend h hs hinside) fun _ => ?_
  refine .ite (fun _ => lexValue_extend h hs hinside) fun _ => ?_
  refine .ite (fun hstar => lexName_extend h hs hinside nofun ?_) fun _ => ?_
  · exact hinside.advance h (p := (· == '*')) (by decide) hstar
  refine .ite (fun hand => lexName_extend h hs hinside nofun ?_) fun _ => ?_
  · exact hinside.advance h (p := (· == '&')) (by decide) hand
  refine .ite (fun hbang => lexTag_extend h hs hinside (beq_iff_eq.mp hbang)) fun _ => ?_
  refine .ite (fun hblock => ?_) fun _ => ?_
  · rw [Bool.and_eq_true, Bool.or_eq_true, beq_iff_eq, beq_iff_eq] at hblock
    refine lexBlockScalar_extend h hs hinside hblock.1 ?_
    rw [isAtBareBlock, hblock.2] at hbare
    simpa [hblock.1] using hbare
  refine .ite (fun hquote => lexQuoted_extend h hs hinside ?_) fun _ => ?_
  · rwa [Bool.or_eq_true, beq_iff_eq, beq_iff_eq] at hquote
  exact .ite (fun _ => lexPlain_extend h hs hinside) fun _ => Tracks.error

end

/-! ### one step -/

/-- Moves to where the next token begins, and ends the blocks that do not go on there. -/
def arrive (s : Lexer) : Except Halt Lexer := do
  let s ← s.skipGap.dropExpired
  return s.unwind s.column

theorem step_eq (s : Lexer) : s.step = s.arrive >>= dispatch := by
  unfold step arrive
  rw [bind_assoc]
  simp only [pure_bind]

theorem step_cases {s s2 : Lexer} (hstep : s.step >>= refresh = .ok s2) :
    ∃ s1, s.arrive = .ok s1 ∧ s1.dispatch >>= refresh = .ok s2 := by
  rw [step_eq, bind_assoc] at hstep
  cases harrive : s.arrive with
  | error halt =>
    rw [harrive] at hstep
    cases hstep
  | ok s1 =>
    rw [harrive] at hstep
    exact ⟨s1, rfl, hstep⟩

section
variable {front back : List Char} (h : Continues front back) {s : Lexer} (hs : s.Placed front)
include h hs

theorem skipGap_extend :
    (s.extend back).skipGap = s.skipGap.extend back ∧ s.skipGap.Placed front := by
  obtain ⟨hgap, hwithin⟩ := hs.cursor.skipGap h s.inFlow
  unfold skipGap
  simp only [extend_cursor, extend_inFlow, hgap]
  generalize s.cursor.skipGap s.inFlow = out at hwithin ⊢
  exact ⟨rfl, hwithin, hs.queue, hs.keys, hs.indent, hs.indents, hs.finished⟩

theorem arrive_extend : Tracks (Same front back) s.arrive (s.extend back).arrive := by
  obtain ⟨hgap, hs0⟩ := skipGap_extend h hs
  unfold arrive
  rw [hgap]
  refine .bind (dropExpired_extend hs0) ?_
  rintro s1 _ ⟨-, hs1, rfl⟩
  exact .ok ⟨hs1.unwind _, unwind_extend s1 back _⟩

omit h in
theorem refresh_extend : Tracks (Same front back) s.refresh (s.extend back).refresh := by
  unfold refresh
  refine .ite (fun _ => .ok ⟨hs, rfl⟩) fun _ => ?_
  intro s1 hs1
  obtain ⟨_, hright, -, hsame⟩ := @dropExpired_extend front back s hs s1 hs1
  exact ⟨_, hright, hsame⟩

/-- A step in front of the end is the same in both texts. -/
theorem step_extend {s1 : Lexer} (harrive : s.arrive = .ok s1) (hne : s1.cursor.rest ≠ [])
    (hbare : s1.isAtBareBlock = false) :
    Tracks (Same front back) (s.step >>= refresh) ((s.extend back).step >>= refresh) := by
  obtain ⟨_, harrive', hs1, rfl⟩ := arrive_extend h hs s1 harrive
  rw [step_eq, step_eq, harrive, harrive']
  refine .bind (dispatch_extend h hs1 ⟨hs1.cursor, hne⟩ hbare) ?_
  rintro s2 _ ⟨hs2, rfl⟩
  exact refresh_extend hs2

/-! ### the end of the text -/

omit h hs in
theorem dropKey_of_nil {s : Lexer} (hkeys : s.keyPlaces = []) : s.dropKey = .ok s := by
  obtain ⟨cursor, version, queue, taken, flow, indent, indents, allowed, keyPlaces, finished⟩ := s
  obtain rfl : keyPlaces = [] := hkeys
  rfl

omit h hs in
theorem dropExpired_of_nil {s : Lexer} (hkeys : s.keyPlaces = []) : s.dropExpired = .ok s := by
  obtain ⟨cursor, version, queue, taken, flow, indent, indents, allowed, keyPlaces, finished⟩ := s
  obtain rfl : keyPlaces = [] := hkeys
  rfl

omit h hs in
theorem refresh_of_nil {s : Lexer} (hkeys : s.keyPlaces = []) : s.refresh = .ok s := by
  rw [refresh, dropExpired_of_nil hkeys, ite_self]

omit h hs in
theorem unwind_keyPlaces (s : Lexer) (column : Int) :
    (s.unwind column).keyPlaces = s.keyPlaces := by
  unfold unwind
  split <;> rfl

/-- At the end of the text there is no place left where a key may begin: it would be on a line that
has ended. -/
theorem arrive_keyPlaces {s1 : Lexer} (harrive : s.arrive = .ok s1) (hnil : s1.cursor.rest = []) :
    s1.keyPlaces = [] := by
  have hs0 := (skipGap_extend h hs).2
  unfold arrive dropExpired at harrive
  cases hfails : s.skipGap.fails (s.skipGap.keyPlaces.filter s.skipGap.isExpired) with
  | error halt =>
    rw [hfails] at harrive
    cases harrive
  | ok =>
    rw [hfails] at harrive
    obtain rfl := Except.ok.inj harrive
    rw [unwind_keyPlaces]
    rw [unwind_cursor] at hnil
    refine List.filter_eq_nil_iff.mpr fun k hk => ?_
    have hline := (hs0.keys k hk).2
    rw [← hs0.cursor.mark_eq hnil] at hline
    simp [isExpired, hline.ne]

omit hs in
/-- Behind the end of the text stands the marker. -/
theorem dispatch_marker (hs : s.Placed front) (hnil : s.cursor.rest = []) :
    (s.extend back).dispatch = (s.extend back).lexMarker .documentStart := by
  have hcolumn : s.cursor.mark.column = 0 := by
    rw [hs.cursor.mark_eq hnil]
    exact last_column h
  have hrest : (s.cursor.extend back).rest = back := by
    show s.cursor.rest ++ back = back
    rw [hnil, List.nil_append]
  have htriple : (s.cursor.extend back).isTriple '-' = true := by
    have hmarker := h.marker
    unfold isTriple Cursor.peek at hmarker ⊢
    rwa [hrest]
  have hback : back.isEmpty = false := by
    obtain ⟨more, rfl⟩ := h.cons
    rfl
  unfold dispatch
  simp only [extend_cursor, extend_mark, hrest, hback, hcolumn, htriple, peek_extend_of_nil h hnil]
  rfl

/-- Where the first text ends, the second has a marker.  The tokens in front are the same. -/
theorem step_end {s1 s2 : Lexer} (harrive : s.arrive = .ok s1) (hnil : s1.cursor.rest = [])
    (hstep : s.step >>= refresh = .ok s2) :
    ∃ queue stop s2', (s.extend back).step >>= refresh = .ok s2'
      ∧ s2.finished = true ∧ s2'.finished = false ∧ s2'.keyPlaces = []
      ∧ s2'.version = s2.version
      ∧ s2.queue = queue ++ [⟨.streamEnd, (Cursor.start front).last, (Cursor.start front).last⟩]
      ∧ s2'.queue = queue ++ [⟨.documentStart, (Cursor.start front).last, stop⟩]
      ∧ ∀ t ∈ queue, t.InText front := by
  obtain ⟨_, harrive', hs1, rfl⟩ := arrive_extend h hs s1 harrive
  have hkeys : (s1.unwind (-1)).keyPlaces = [] := by
    rw [unwind_keyPlaces]
    exact arrive_keyPlaces h hs harrive hnil
  have hmark : (s1.unwind (-1)).cursor.mark = (Cursor.start front).last := by
    rw [unwind_cursor]
    exact hs1.cursor.mark_eq hnil
  have hlast : s1.dispatch = s1.lexEnd := by
    unfold dispatch
    simp only [hnil]
    rfl
  rw [step_eq, harrive, bind_assoc] at hstep
  rw [step_eq, harrive', bind_assoc]
  have hleft : s1.lexEnd >>= refresh = .ok s2 := by
    rw [← hlast]
    exact hstep
  show ∃ queue stop s2', (s1.extend back).dispatch >>= refresh = .ok s2' ∧ _
  rw [lexEnd, dropKey_of_nil hkeys] at hleft
  rw [dispatch_marker h hs1 hnil, lexMarker, unwind_extend,
    dropKey_of_nil (s := (s1.unwind (-1)).extend back) hkeys]
  have hs2 := hs1.unwind (-1)
  generalize s1.unwind (-1) = s3 at hkeys hmark hs2 hleft
  obtain rfl := Except.ok.inj hleft
  refine ⟨s3.queue, ((s3.cursor.extend back).forward 3).mark, _,
    refresh_of_nil (s := ((s3.extend back).allowKey false).emitChars .documentStart 3) hkeys, rfl,
    hs2.finished, hkeys, rfl, ?_, ?_, hs2.queue⟩
  · show s3.queue ++ [⟨.streamEnd, s3.cursor.mark, s3.cursor.mark⟩] = _
    rw [hmark]
  · show s3.queue ++ [⟨.documentStart, s3.cursor.mark, _⟩] = _
    rw [hmark]
    rfl

end

/-! ### handing out tokens -/

theorem release_extend (s : Lexer) (back : List Char) (queue : List Token) :
    (s.extend back).release queue
      = ((s.release queue).1, (s.release queue).2.extend back) := by
  induction queue generalizing s with
  | nil => rfl
  | cons token queue ih =>
    have hheld : (s.extend back).holdsBack = s.holdsBack := rfl
    have hfinished : (s.extend back).finished = s.finished := rfl
    rw [release, release, hheld, hfinished]
    split
    · rfl
    · have hmore := ih { s with taken := s.taken + 1 }
      exact congrArg (fun out : List ReadyToken × Lexer => (⟨token, s.version⟩ :: out.1, out.2))
        hmore

theorem Placed.release {front : List Char} {s : Lexer} (hs : s.Placed front) {queue : List Token}
    (hqueue : ∀ t ∈ queue, t.InText front) :
    (s.release queue).2.Placed front ∧ ∀ t ∈ (s.release queue).1, t.token.InText front := by
  induction queue generalizing s with
  | nil =>
    exact ⟨⟨hs.cursor, List.forall_mem_nil _, hs.keys, hs.indent, hs.indents, hs.finished⟩,
      List.forall_mem_nil _⟩
  | cons token queue ih =>
    obtain ⟨htoken, hrest⟩ := List.forall_mem_cons.mp hqueue
    rw [Lexer.release]
    split
    · exact ⟨⟨hs.cursor, hqueue, hs.keys, hs.indent, hs.indents, hs.finished⟩,
        List.forall_mem_nil _⟩
    · have hnext : ({ s with taken := s.taken + 1 } : Lexer).Placed front :=
        ⟨hs.cursor, hs.queue, hs.keys, hs.indent, hs.indents, hs.finished⟩
      obtain ⟨hplaced, hready⟩ := ih hnext hrest
      exact ⟨hplaced, List.forall_mem_cons.mpr ⟨htoken, hready⟩⟩

/-- At the end of the text, or where no key may begin, all tokens are handed out. -/
theorem release_all {s : Lexer} (hall : s.finished = true ∨ s.keyPlaces = [])
    (queue : List Token) : (s.release queue).1 = queue.map fun t => ⟨t, s.version⟩ := by
  induction queue generalizing s with
  | nil => rfl
  | cons token queue ih =>
    have hheld : (!s.finished && s.holdsBack) = false := by
      rcases hall with hfinished | hkeys
      · rw [hfinished]
        rfl
      · rw [holdsBack, hkeys, List.any_nil, Bool.and_false]
    rw [release, hheld]
    exact congrArg (⟨token, s.version⟩ :: ·) (ih (s := { s with taken := s.taken + 1 }) hall)

/-! ### all steps -/

/-- Does the lexer get to a block scalar that takes in what follows the text? -/
def getsToBareBlock : (fuel : Nat) → Lexer → Bool
  | 0, _ => false
  | fuel + 1, s =>
    match s.arrive with
    | .error _ => false
    | .ok s =>
      s.isAtBareBlock || match s.dispatch >>= refresh with
        | .error _ => false
        | .ok s =>
          let s := (s.release s.queue).2
          !s.finished && getsToBareBlock fuel s

theorem getsToBareBlock_succ (fuel : Nat) (s : Lexer) :
    s.getsToBareBlock (fuel + 1)
      = match s.arrive with
        | .error _ => false
        | .ok s =>
          s.isAtBareBlock || match s.dispatch >>= refresh with
            | .error _ => false
            | .ok s =>
              let s := (s.release s.queue).2
              !s.finished && getsToBareBlock fuel s := (rfl)

theorem lexFrom_of_error (fuel : Nat) {s : Lexer} {halt : Halt}
    (hstep : s.step >>= refresh = .error halt) : s.lexFrom (fuel + 1) = ⟨[], some halt⟩ := by
  rw [lexFrom_succ, hstep]

theorem lexFrom_of_finished (fuel : Nat) {s s1 : Lexer} (hstep : s.step >>= refresh = .ok s1)
    (hfinished : s1.finished = true) :
    s.lexFrom (fuel + 1) = ⟨(s1.release s1.queue).1, none⟩ := by
  have hout := (release_spec s1 s1.queue).2.1
  rw [lexFrom_succ, hstep]
  simp only [hout, hfinished, if_true]

theorem lexFrom_of_open (fuel : Nat) {s s1 : Lexer} (hstep : s.step >>= refresh = .ok s1)
    (hopen : s1.finished = false) :
    s.lexFrom (fuel + 1)
      = ⟨(s1.release s1.queue).1 ++ ((s1.release s1.queue).2.lexFrom fuel).tokens,
        ((s1.release s1.queue).2.lexFrom fuel).halt⟩ := by
  have hout := (release_spec s1 s1.queue).2.1
  rw [lexFrom_succ, hstep]
  simp only [hout, hopen, Bool.false_eq_true, if_false]

/-- The tokens are the same up to the end of the text, or to what stops them. -/
theorem lexFrom_extend {front back : List Char} (h : Continues front back) {fuel fuel' : Nat}
    {s : Lexer} (hs : s.Placed front) (hsound : s.Sound front)
    (hfuel : s.cursor.rest.length < fuel) (hfuel' : s.cursor.rest.length < fuel')
    (hbare : s.getsToBareBlock fuel = false) :
    Ahead front (s.lexFrom fuel).tokens ((s.extend back).lexFrom fuel').tokens := by
  induction fuel generalizing fuel' s with
  | zero => omega
  | succ fuel ih =>
    obtain ⟨fuel', rfl⟩ : ∃ n, fuel' = n + 1 := ⟨fuel' - 1, by omega⟩
    have hprogress := step_refresh_reads s hsound
    cases hleft : s.step >>= refresh with
    | error halt =>
      rw [lexFrom_of_error fuel hleft]
      exact .stop _
    | ok s2 =>
      obtain ⟨s1, harrive, hdispatch⟩ := step_cases hleft
      rw [getsToBareBlock_succ, harrive] at hbare
      by_cases hnil : s1.cursor.rest = []
      · obtain ⟨queue, stop, s2', hright, hdone, hopen, hkeys, hversion, hqueue, hqueue',
          htokens⟩ := step_end h hs harrive hnil hleft
        have hready : ∀ t ∈ queue.map fun t => (⟨t, s2.version⟩ : ReadyToken),
            t.token.InText front := by
          intro t ht
          obtain ⟨token, htoken, rfl⟩ := List.mem_map.mp ht
          exact htokens token htoken
        rw [lexFrom_of_finished fuel hleft hdone, lexFrom_of_open fuel' hright hopen,
          release_all (.inl hdone), release_all (.inr hkeys), hqueue, hqueue', hversion,
          List.map_append, List.map_append, List.append_assoc]
        exact Ahead.append hready (.last _ _ _)
      · simp only [hdispatch, Bool.or_eq_false_iff] at hbare
        obtain ⟨_, hright, hs2, rfl⟩ := step_extend h hs harrive hnil hbare.1 s2 hleft
        obtain ⟨hplaced, hready⟩ := hs2.release hs2.queue
        obtain ⟨hcursor, -, hqueue, -⟩ := release_spec s2 s2.queue
        rw [hleft] at hprogress
        have hshorter : s2.cursor.rest.length < s.cursor.rest.length := by
          rcases hprogress.2 with ⟨hdone, -⟩ | ⟨-, hlength⟩
          · exact absurd (hdone.symm.trans hs2.finished) (by decide)
          · exact hlength
        have hsound2 : (s2.release s2.queue).2.Sound front :=
          ⟨hcursor ▸ hprogress.1.cursor, fun t ht => hprogress.1.queue t (hqueue t ht)⟩
        have hbare2 : (s2.release s2.queue).2.getsToBareBlock fuel = false := by
          simpa only [hplaced.finished, Bool.not_false, Bool.true_and] using hbare.2
        rw [lexFrom_of_open fuel hleft hs2.finished, lexFrom_of_open fuel' hright hs2.finished]
        have hqueues : (s2.extend back).queue = s2.queue := rfl
        rw [hqueues, release_extend]
        refine Ahead.append hready (ih hplaced hsound2 ?_ ?_ hbare2)
        · rw [hcursor]
          omega
        · rw [hcursor]
          omega

theorem placed_start (front : List Char) : (Lexer.start front).Placed front :=
  ⟨.start, List.forall_mem_nil _, List.forall_mem_nil _, Int.le_refl _, List.forall_mem_nil _, rfl⟩

end Lexer

/-- Does a text end in a block scalar that takes in what follows? -/
def endsInBareBlock (text : List Char) : Bool :=
  (Lexer.start text).getsToBareBlock (text.length + 2)

/-- What follows a text at a marker changes none of its tokens. -/
theorem lex_extend {front back : List Char} (h : Continues front back)
    (hbare : endsInBareBlock front = false) :
    Ahead front (lex front).tokens (lex (front ++ back)).tokens := by
  refine Lexer.lexFrom_extend h (Lexer.placed_start front)
    ⟨List.suffix_rfl, List.forall_mem_nil _⟩ ?_ ?_ hbare
  · show front.length < front.length + 2
    omega
  · show front.length < (front ++ back).length + 2
    rw [List.length_append]
    omega

end YamlSpan
