import YamlSpan.Proofs.ExtendedEvents
import YamlSpan.Proofs.Outcome

/-!
# Earlier documents

What begins with a marker cannot change the documents in front of it, whatever is wrong with it:
their events come first, each finished document stays, and what it means does not depend on the text
behind it.  This takes a text that can be read at all, and one whose last document is over.

* `Adds`                           an action that takes no finished document back
* `load_documents`                 whole documents that a run begins with are returned first
* `EventDocument.toRaw_extend`     a document means the same in a text that goes on
* `load_keeps_documents_in_front`  a failure does not damage the documents in front of it
* `unreadable_takes_document_in_front`   a code point that cannot be read does
-/

namespace YamlSpan

namespace Assembly

/-! ### documents are only added -/

/-- An action that takes no finished document back. -/
def Adds {α : Type} (action : Action α) : Prop :=
  ∀ c x c', action.run c = .ok x c' → c.documents <+: c'.documents

section
variable {α β : Type}

theorem Adds.pure (x : α) : Adds (pure x) := by
  rintro c _ _ ⟨⟩
  exact List.prefix_rfl

theorem Adds.throw (fault : Fault) : Adds (throw fault : Action α) := nofun

theorem Adds.get : Adds get := by
  rintro c _ _ ⟨⟩
  exact List.prefix_rfl

theorem Adds.modify {f : Assembly → Assembly} (hf : ∀ c, c.documents <+: (f c).documents) :
    Adds (modify f) := by
  rintro c _ _ ⟨⟩
  exact hf c

theorem Adds.bind {action : Action α} {next : α → Action β} (h : Adds action)
    (hnext : ∀ x, Adds (next x)) : Adds (action >>= next) := by
  intro c y c' hrun
  rw [EStateM.run_bind] at hrun
  cases hfirst : action.run c with
  | ok x c1 =>
    rw [hfirst] at hrun
    exact (h c x c1 hfirst).trans (hnext x c1 y c' hrun)
  | error fault c1 =>
    rw [hfirst] at hrun
    cases hrun

end

theorem adds_openDocument : Adds openDocument := by
  unfold openDocument
  refine .bind .get fun c => ?_
  split
  · exact .pure _
  · exact .throw _

theorem adds_report (reason : String) (span : Span) (isWarning : Bool) :
    Adds (report reason span isWarning) := by
  unfold report
  exact .bind adds_openDocument fun d => .modify fun c => List.prefix_rfl

theorem adds_endDocument (stop : Int) : Adds (endDocument stop) := by
  unfold endDocument
  exact .bind adds_openDocument fun d => .modify fun c => List.prefix_append _ _

section
variable (src : Source)

theorem adds_add (node : Option RawNode) (span : Span) : Adds (add src node span) := by
  unfold add
  refine .bind .get fun c => ?_
  split
  · exact .bind adds_openDocument fun d => .modify fun c => List.prefix_rfl
  · split
    · exact .modify fun c => List.prefix_rfl
    · exact .modify fun c => List.prefix_rfl
    · split
      · exact .bind (adds_report _ _ _) fun _ => .modify fun c => List.prefix_rfl
      · exact .modify fun c => List.prefix_rfl

theorem adds_checkTag (tag : Option String) (kind : TagKind) (span : Span) :
    Adds (checkTag src tag kind span) := by
  unfold checkTag
  split
  · exact adds_report _ _ _
  · exact .pure ()

theorem adds_bindAnchor (anchor : Option String) (node : RawNode) (span : Span) :
    Adds (bindAnchor anchor node span) := by
  unfold bindAnchor
  split
  · refine .bind .get fun c => ?_
    split
    · exact .bind (adds_report _ _ _) fun _ => .modify fun c => List.prefix_rfl
    · exact .modify fun c => List.prefix_rfl
  · exact .pure ()

theorem adds_scalar (span : Span) (value : Text) (plain : Bool) (anchor tag : Option String) :
    Adds (scalar src span value plain anchor tag) := by
  unfold scalar
  split
  · exact adds_add src _ _
  · split
    · exact .bind (adds_bindAnchor _ _ _) fun _ => adds_add src _ _
    · exact .bind (adds_checkTag src _ _ _) fun _ =>
        .bind (adds_bindAnchor _ _ _) fun _ => adds_add src _ _

theorem adds_reference (span : Span) (name : String) : Adds (reference src span name) := by
  unfold reference
  refine .bind .get fun c => ?_
  dsimp only
  split
  · exact .bind (adds_report _ _ _) fun _ => adds_add src _ _
  · exact adds_add src _ _

theorem adds_openCollection (kind : TagKind) (content : Content) (span : Span)
    (anchor tag : Option String) : Adds (openCollection src kind content span anchor tag) := by
  unfold openCollection
  exact .bind (adds_checkTag src _ _ _) fun _ => .modify fun c => List.prefix_rfl

theorem adds_pop : Adds pop := by
  unfold pop
  refine .bind .get fun c => ?_
  split
  · exact .throw _
  · exact .bind (.modify fun c => List.prefix_rfl) fun _ => .pure _

theorem adds_close (stop : Int) : Adds (close src stop) := by
  have hclose : Adds (do
      let top ← pop
      let node := top.node stop
      bindAnchor top.anchor node ⟨node.span.start, top.anchorStop⟩
      add src (some node) node.span) :=
    .bind adds_pop fun top => .bind (adds_bindAnchor _ _ _) fun _ => adds_add src _ _
  unfold close
  refine .bind .get fun c => ?_
  split
  · exact .bind (adds_add src _ _) fun _ => hclose
  · exact hclose

theorem adds_closeAll (stop : Int) (count : Nat) : Adds (closeAll src stop count) := by
  induction count with
  | zero => exact .pure ()
  | succ count ih => exact .bind (adds_close src stop) fun _ => ih

theorem adds_takeEvent (event : Event) : Adds (takeEvent src event) := by
  have hshifted : ∀ span, Adds (shifted span) := fun span => .bind .get fun c => .pure _
  unfold takeEvent
  cases event with
  | documentStart span => exact .bind (hshifted span) fun _ => .modify fun c => List.prefix_rfl
  | documentEnd span => exact .bind (hshifted span) fun _ => adds_endDocument _
  | scalar span => exact .bind (hshifted span) fun _ => adds_scalar src _ _ _ _ _
  | reference span => exact .bind (hshifted span) fun _ => adds_reference src _ _
  | sequenceStart span => exact .bind (hshifted span) fun _ => adds_openCollection src _ _ _ _ _
  | mappingStart span => exact .bind (hshifted span) fun _ => adds_openCollection src _ _ _ _ _
  | sequenceEnd span => exact .bind (hshifted span) fun _ => adds_close src _
  | mappingEnd span => exact .bind (hshifted span) fun _ => adds_close src _

theorem adds_takeAll (events : List Event) : Adds (takeAll src events) := by
  induction events with
  | nil => exact .pure ()
  | cons event rest ih => exact .bind (adds_takeEvent src event) fun _ => ih

theorem adds_breakOff (f : Failure) : Adds (breakOff src f) := by
  have hrequire : ∀ offset, Adds (requireDocument offset) := by
    intro offset
    unfold requireDocument
    refine .bind .get fun c => ?_
    split
    · exact .modify fun c => List.prefix_rfl
    · exact .pure ()
  unfold breakOff
  refine .bind .get fun c => .bind (hrequire _) fun _ => .bind (adds_report _ _ _) fun _ => ?_
  exact .bind .get fun c1 => .bind (adds_closeAll src _ _) fun _ =>
    .bind (adds_endDocument _) fun _ => .pure _

theorem adds_takeRun (base : Nat) (run : EventRun) : Adds (takeRun src base run) := by
  unfold takeRun
  refine .bind (.modify fun c => List.prefix_rfl) fun _ => .bind (adds_takeAll src _) fun _ => ?_
  split
  · exact .pure none
  · exact adds_breakOff src _
  · exact .throw _

/-- The documents that a run begins with are there behind it. -/
theorem takeRun_documents {base : Nat} {run : EventRun} {documents : List EventDocument}
    (hevents : documentEvents documents <+: run.events) {c c' : Assembly} (hidle : c.current = none)
    {resume : Option Nat} (h : (takeRun src base run).run c = .ok resume c') :
    c.documents ++ documents.map (EventDocument.toRaw src base) <+: c'.documents := by
  obtain ⟨more, hmore⟩ := hevents
  obtain ⟨c1, htake, -, hdocuments, hbase⟩ :=
    takeAll_documentEvents src documents { c with base := base } hidle
  -- behind these documents the run goes on as one over the other events
  have hrest : (takeRun src base ⟨more, run.halt⟩).run c1 = .ok resume c' := by
    have hmove : (moveTo base).run c1 = .ok () c1 := by
      obtain ⟨documents1, current1, stack1, anchors1, base1⟩ := c1
      obtain rfl : base1 = base := hbase
      rfl
    rw [takeRun, EStateM.run_bind, hmove]
    rw [takeRun, EStateM.run_bind] at h
    change ((takeAll src run.events >>= _).run { c with base := base }) = _ at h
    rw [← hmore, EStateM.run_bind, takeAll_append_ok src htake, ← EStateM.run_bind] at h
    exact h
  rw [← hdocuments]
  exact adds_takeRun src base ⟨more, run.halt⟩ _ _ _ hrest

/-- No run takes back a document of the runs before it. -/
theorem adds_takeRuns (read : EventSource) (fuel base : Nat) :
    Adds (takeRuns read src fuel base) := by
  induction fuel generalizing base with
  | zero => exact .pure ()
  | succ fuel ih =>
    unfold takeRuns
    refine .bind (adds_takeRun src base _) fun resume => ?_
    cases resume with
    | none => exact .pure ()
    | some resume => exact ih resume

end

/-- What loading gives begins with the documents that its first run begins with. -/
theorem load_documents {read : EventSource} {tags : TagRegistry} {text : Text}
    {documents : List EventDocument} (hevents : documentEvents documents <+: (read text).events)
    {loaded : List RawDocument} (h : load read tags text = .ok loaded) :
    documents.map (EventDocument.toRaw ⟨text, tags⟩ 0) <+: loaded := by
  unfold load at h
  rw [takeRuns, List.drop_zero, EStateM.run_bind] at h
  cases hrun : (takeRun ⟨text, tags⟩ 0 (read text)).run initial with
  | error fault c =>
    rw [hrun] at h
    cases h
  | ok resume c =>
    rw [hrun] at h
    have hfirst := takeRun_documents ⟨text, tags⟩ hevents (c := initial) rfl hrun
    cases resume with
    | none =>
      obtain rfl : c.documents = loaded := Except.ok.inj h
      exact hfirst
    | some resume =>
      simp only at h
      cases hmore : (takeRuns read ⟨text, tags⟩ text.length resume).run c with
      | error fault c1 =>
        rw [hmore] at h
        cases h
      | ok _ c1 =>
        rw [hmore] at h
        obtain rfl : c1.documents = loaded := Except.ok.inj h
        exact hfirst.trans (adds_takeRuns _ read text.length resume _ _ _ hmore)

/-- Loading gives the documents of its first run, where that is the last. -/
theorem load_of_last {read : EventSource} {tags : TagRegistry} {text : Text} {s : Stream}
    (h : (read text).Follows s)
    (hlast : (read text).failure?.bind (resumeAt ⟨text, tags⟩ 0) = none) :
    load read tags text = .ok (s.added ⟨text, tags⟩ 0 0 (read text).failure?) := by
  obtain ⟨c, hrun, -, hdocuments⟩ := takeRun_follows ⟨text, tags⟩ 0 h initial rfl
  have hdone : (takeRun ⟨text, tags⟩ 0 (read text)).run initial = .ok none c :=
    hrun.trans (congrArg (EStateM.Result.ok · c) hlast)
  unfold load
  rw [takeRuns, List.drop_zero, EStateM.run_bind, hdone]
  exact congrArg Except.ok hdocuments

/-- Loading gives the documents of a run that is complete. -/
theorem load_of_complete {read : EventSource} {tags : TagRegistry} {text : Text}
    {documents : List EventDocument} (h : read text = ⟨documentEvents documents, none⟩) :
    load read tags text = .ok (documents.map (EventDocument.toRaw ⟨text, tags⟩ 0)) := by
  have hfollows : (read text).Follows ⟨documents, none⟩ := by
    rw [h]
    exact ⟨(List.append_nil _).symm, rfl, fun _ => rfl⟩
  have hfailure : (read text).failure? = none := by
    rw [h]
    rfl
  rw [load_of_last hfollows (by rw [hfailure]; rfl), hfailure]
  exact congrArg Except.ok (List.append_nil _)

end Assembly

/-! ### meanings in a text that goes on -/

section
variable {front back : Text}

theorem Text.slice_extend {start stop : Int} (hstart : UpTo front.length start)
    (hstop : UpTo front.length stop) :
    Text.slice (front ++ back) start stop = Text.slice front start stop := by
  obtain ⟨a, rfl⟩ := Int.eq_ofNat_of_zero_le hstart.1
  obtain ⟨b, rfl⟩ := Int.eq_ofNat_of_zero_le hstop.1
  have ha : a ≤ front.length := Int.ofNat_le.mp hstart.2
  have hb : b ≤ front.length := Int.ofNat_le.mp hstop.2
  rw [Text.slice_natCast _ a b hb, Text.slice_natCast _ a b (by rw [List.length_append]; omega),
    List.drop_append_of_le_length ha, List.take_append_of_le_length]
  rw [List.length_drop]
  omega

theorem RawNode.keyText_extend : ∀ node : RawNode,
    node.AllSpans (Span.HasEnds (UpTo front.length)) →
    node.keyText (front ++ back) = node.keyText front
  | .scalar _ _ _ _, _ => rfl
  | .inclusion _ _, _ => rfl
  | .reference _ _ (some target), h => RawNode.keyText_extend target h.2
  | .reference _ _ none, h => Text.slice_extend h.1.1 h.1.2
  | .sequence _ _, h => Text.slice_extend h.1.1 h.1.2
  | .map _ _, h => Text.slice_extend h.1.1 h.1.2
  | .entry (.mk _ _ _), h => Text.slice_extend h.1.1 h.1.2

theorem keyText_extend (node : Option RawNode)
    (h : AllSpans? (Span.HasEnds (UpTo front.length)) node) :
    keyText (front ++ back) node = keyText front node := by
  cases node with
  | none => rfl
  | some node => exact node.keyText_extend h

theorem repeatReports_extend {earlier : List RawEntry}
    (hearlier : ∀ e ∈ earlier, e.AllSpans (Span.HasEnds (UpTo front.length))) {key : Placed}
    (hkey : key.HasEnds (UpTo front.length)) :
    repeatReports (front ++ back) earlier key = repeatReports front earlier key := by
  have hkeys : (earlier.map fun e => keyText (front ++ back) e.key)
      = earlier.map fun e => keyText front e.key :=
    List.map_congr_left fun e he => keyText_extend e.key (hearlier e he).key
  rw [repeatReports, repeatReports, hkeys, keyText_extend key.node hkey.2]

namespace EventTree

variable {tags : TagRegistry} {base : Int}

mutual

/-- The meaning of a tree does not depend on what follows the text that its events stand in. -/
theorem meaning_extend : ∀ (tree : EventTree) {anchors : List (String × RawNode)},
    AnchorsHaveEnds (UpTo front.length) anchors →
    (∀ event ∈ tree.events, (event.span.shift base).HasEnds (UpTo front.length)) →
    tree.meaning ⟨front ++ back, tags⟩ base anchors = tree.meaning ⟨front, tags⟩ base anchors
  | .scalar span value plain anchor tag, anchors, ha, h => rfl
  | .reference span name, anchors, ha, h => rfl
  | .sequence start anchor tag items stop, anchors, ha, h => by
    have hinner := (List.forall_mem_append.mp (List.forall_mem_cons.mp h).2).1
    rw [meaning, meaning, itemsMeaning_extend items ha hinner]
    rfl
  | .mapping start anchor tag pairs stop, anchors, ha, h => by
    have hinner := (List.forall_mem_append.mp (List.forall_mem_cons.mp h).2).1
    rw [meaning, meaning, pairsMeaning_extend pairs [] ha (List.forall_mem_nil _) hinner]
    rfl

theorem itemsMeaning_extend : ∀ (items : List EventTree) {anchors : List (String × RawNode)},
    AnchorsHaveEnds (UpTo front.length) anchors →
    (∀ event ∈ itemEvents items, (event.span.shift base).HasEnds (UpTo front.length)) →
    itemsMeaning ⟨front ++ back, tags⟩ base items anchors
      = itemsMeaning ⟨front, tags⟩ base items anchors
  | [], anchors, _, _ => rfl
  | item :: rest, anchors, ha, h => by
    obtain ⟨hitem, hrest⟩ := List.forall_mem_append.mp h
    have hanchors := (meaning_hasEnds ⟨front, tags⟩ base item ha hitem).2
    rw [itemsMeaning, itemsMeaning, meaning_extend item ha hitem]
    simp only [itemsMeaning_extend rest hanchors hrest]

theorem pairsMeaning_extend : ∀ (pairs : List (EventTree × EventTree)) (earlier : List RawEntry)
    {anchors : List (String × RawNode)}, AnchorsHaveEnds (UpTo front.length) anchors →
    (∀ e ∈ earlier, e.AllSpans (Span.HasEnds (UpTo front.length))) →
    (∀ event ∈ pairEvents pairs, (event.span.shift base).HasEnds (UpTo front.length)) →
    pairsMeaning ⟨front ++ back, tags⟩ base pairs earlier anchors
      = pairsMeaning ⟨front, tags⟩ base pairs earlier anchors
  | [], _, anchors, _, _, _ => rfl
  | (key, value) :: rest, earlier, anchors, ha, hearlier, h => by
    obtain ⟨hkey, hmore⟩ := List.forall_mem_append.mp h
    obtain ⟨hvalue, hrest⟩ := List.forall_mem_append.mp hmore
    obtain ⟨hk, hka⟩ := meaning_hasEnds ⟨front, tags⟩ base key ha hkey
    obtain ⟨hv, hva⟩ := meaning_hasEnds ⟨front, tags⟩ base value hka hvalue
    have hall := List.forall_mem_append.mpr
      ⟨hearlier, List.forall_mem_singleton.mpr (pairEntry_hasEnds hk hv)⟩
    rw [pairsMeaning, pairsMeaning, meaning_extend key ha hkey]
    simp only [meaning_extend value hka hvalue, pairsMeaning_extend rest _ hva hall hrest,
      repeatReports_extend hearlier hk]

end

end EventTree

/-- A document is the same in a text that goes on. -/
theorem EventDocument.toRaw_extend {tags : TagRegistry} (d : EventDocument)
    (h : ∀ event ∈ d.events, event.span.HasEnds (UpTo front.length)) :
    d.toRaw ⟨front ++ back, tags⟩ 0 = d.toRaw ⟨front, tags⟩ 0 := by
  have hroot : ∀ event ∈ d.root.events,
      (event.span.shift 0).HasEnds (UpTo front.length) := by
    intro event hevent
    have hspan := h event (List.mem_cons_of_mem _ (List.mem_append_left _ hevent))
    rwa [Span.shift, Int.zero_add, Int.zero_add]
  rw [toRaw, toRaw, d.root.meaning_extend (List.forall_mem_nil _) hroot]

end

/-! ### readable texts -/

theorem exists_char_of_isReadable {c : CodePoint} (h : isReadable c = true) :
    ∃ ch, c = .char ch ∧ ch ≠ Cursor.finis := by
  cases c with
  | char ch =>
    refine ⟨ch, rfl, ?_⟩
    rintro rfl
    exact absurd h (by decide)
  | surrogate index =>
    have hlt := index.isLt
    unfold isReadable CodePoint.toNat at h
    simp at h
    omega

/-- A readable text holds characters only, none of which stands for the end of a text. -/
theorem exists_chars_of_isReadable {text : Text} (h : ∀ c ∈ text, isReadable c = true) :
    ∃ chars, text = Text.ofChars chars ∧ Cursor.finis ∉ chars := by
  induction text with
  | nil => exact ⟨[], rfl, List.not_mem_nil⟩
  | cons c text ih =>
    obtain ⟨hc, hrest⟩ := List.forall_mem_cons.mp h
    obtain ⟨ch, rfl, hch⟩ := exists_char_of_isReadable hc
    obtain ⟨chars, rfl, hchars⟩ := ih hrest
    exact ⟨ch :: chars, rfl, List.not_mem_cons_of_ne_of_not_mem hch.symm hchars⟩

theorem length_chars {text : Text} (h : ∀ c ∈ text, isReadable c = true) :
    text.chars.length = text.length := by
  obtain ⟨chars, rfl, -⟩ := exists_chars_of_isReadable h
  rw [Text.chars_ofChars, Text.ofChars, List.length_map]

theorem textEvents_of_isReadable {text : Text} (h : ∀ c ∈ text, isReadable c = true) :
    textEvents text = readEvents (lex text.chars) := by
  have hnone : firstUnreadable? text = none := by
    rw [firstUnreadable?, List.dropWhile_eq_nil_iff.mpr h]
  rw [textEvents, hnone]

/-- A text whose events nothing stops is readable. -/
theorem isReadable_of_halt {text : Text} (h : (textEvents text).halt = none) :
    ∀ c ∈ text, isReadable c = true := by
  unfold textEvents firstUnreadable? at h
  cases hdrop : text.dropWhile isReadable with
  | nil => exact List.dropWhile_eq_nil_iff.mp hdrop
  | cons c rest =>
    rw [hdrop] at h
    cases h

theorem isTriple_of_isMarker {text : Text} (h : Assembly.isMarker text = true) :
    (Cursor.start text.chars).isTriple '-' = true := by
  unfold Assembly.isMarker at h
  split at h
  · rfl
  · rename_i c rest
    rw [Bool.or_eq_true, Bool.or_eq_true, beq_iff_eq, beq_iff_eq, Assembly.isLineEnd_iff] at h
    rcases h with (rfl | rfl) | rfl | rfl <;> rfl
  · cases h

/-- A text that ends with a line goes on with a marker. -/
theorem continues_of_isMarker {front back : Text} (hfront : ∀ c ∈ front, isReadable c = true)
    (hlines : ∀ c, front.getLast? = some c → isLineEnd c = true)
    (hmarker : Assembly.isMarker back = true) : Continues front.chars back.chars := by
  obtain ⟨chars, rfl, hfinis⟩ := exists_chars_of_isReadable hfront
  rw [Text.chars_ofChars]
  refine ⟨fun ch hlast => hlines (.char ch) ?_, hfinis, isTriple_of_isMarker hmarker⟩
  rw [Text.ofChars, List.getLast?_map, hlast]
  rfl

/-- **A failure does not damage the documents in front of it.**  A text that nothing stops ends with
a line, and another one begins with the marker of a document, whatever follows the marker.  All
documents of the first text are there again in front of the others, unless loading meets a fault.
Two things may be in the way.  A block scalar at the end of the first text, outside of everything
and without an indentation, takes in the marker.  And a code point that cannot be read, wherever it
is, stops the reader in front of the first event. -/
theorem load_keeps_documents_in_front (tags : TagRegistry) {front back : Text}
    (hfront : (textEvents front).halt = none)
    (hlines : ∀ c, front.getLast? = some c → isLineEnd c = true)
    (hbare : endsInBareBlock front.chars = false)
    (hmarker : Assembly.isMarker back = true) (hback : ∀ c ∈ back, isReadable c = true) :
    ∃ documents, load textEvents tags front = .ok documents
      ∧ ((∃ more, load textEvents tags (front ++ back) = .ok (documents ++ more))
        ∨ ∃ base c fault, Assembly.Reached textEvents ⟨front ++ back, tags⟩ base c
          ∧ (textEvents ((front ++ back).drop base)).halt = some (.fault fault)
          ∧ load textEvents tags (front ++ back) = .error fault) := by
  have hreadable := isReadable_of_halt hfront
  have hcontinues := continues_of_isMarker hreadable hlines hmarker
  have hevents := textEvents_of_isReadable hreadable
  have hevents' := textEvents_of_isReadable (List.forall_mem_append.mpr ⟨hreadable, hback⟩)
  have hchars : (front ++ back).chars = front.chars ++ back.chars := List.filterMap_append
  rw [hevents] at hfront
  obtain ⟨hbegin, hspans⟩ := readEvents_extend hcontinues hbare hfront
  rw [← hevents] at hbegin hspans hfront
  rw [← hchars, ← hevents'] at hbegin
  -- the events of the first text are those of whole documents
  obtain ⟨⟨documents, -, hall⟩, -⟩ := textEvents_reads front
  have hdocuments := hall hfront
  have hcomplete : textEvents front = ⟨documentEvents documents, none⟩ := by
    rw [← hdocuments, ← hfront]
  rw [hdocuments] at hbegin hspans
  have hsame : documents.map (EventDocument.toRaw ⟨front ++ back, tags⟩ 0)
      = documents.map (EventDocument.toRaw ⟨front, tags⟩ 0) := by
    refine List.map_congr_left fun d hd => d.toRaw_extend fun event hevent => ?_
    have hspan := hspans event (List.mem_flatMap.mpr ⟨d, hd, hevent⟩)
    rwa [length_chars hreadable] at hspan
  refine ⟨_, Assembly.load_of_complete hcomplete, ?_⟩
  have hread : ∀ base, (textEvents ((front ++ back).drop base)).IsNested :=
    fun base => (textEvents_reads _).1
  rcases Assembly.load_or_fault textEvents tags (front ++ back) hread with
    ⟨runs, c, -, hload, -⟩ | hfault
  · obtain ⟨more, hmore⟩ := Assembly.load_documents hbegin hload
    refine .inl ⟨more, ?_⟩
    rw [hload, ← hmore, hsame]
  · exact .inr hfault

/-- A sequence that is not closed leaves the document in front of it as it is. -/
theorem load_keeps_document_in_front_of_cut :
    let front : Text := "a\n"
    let back : Text := "---\n[\n"
    (textEvents front).halt = none ∧ (∀ c, front.getLast? = some c → isLineEnd c = true)
      ∧ endsInBareBlock front.chars = false ∧ Assembly.isMarker back = true
      ∧ (∀ c ∈ back, isReadable c = true)
      ∧ ∃ documents more, load textEvents .empty front = .ok documents
        ∧ load textEvents .empty (front ++ back) = .ok (documents ++ more) := by
  intro front back
  have hfront : (textEvents front).halt = none := by decide +kernel
  have hlines : ∀ c, front.getLast? = some c → isLineEnd c = true := by
    rintro c ⟨⟩
    rfl
  have hbare : endsInBareBlock front.chars = false := by decide +kernel
  have hmarker : Assembly.isMarker back = true := by decide +kernel
  have hback : ∀ c ∈ back, isReadable c = true := by decide +kernel
  refine ⟨hfront, hlines, hbare, hmarker, hback, ?_⟩
  obtain ⟨documents, hload, ⟨more, hmore⟩ | ⟨base, c, fault, -, hhalt, -⟩⟩ :=
    load_keeps_documents_in_front .empty hfront hlines hbare hmarker hback
  · exact ⟨documents, more, hload, hmore⟩
  · -- a fault takes a percent sign or a backslash
    obtain ⟨sign, hsign, hmem⟩ := ((textEvents_reads _).2 _ hhalt).of_drop
    rcases Fault.mem_signs hsign with rfl | rfl
    · exact absurd hmem (by decide +kernel)
    · exact absurd hmem (by decide +kernel)

/-- A code point that cannot be read takes away the document in front of it: of a text whose second
document has one, nothing is returned but its failure. -/
theorem unreadable_takes_document_in_front :
    let front : Text := "a\n"
    let back : Text := "---\n\x07\n"
    (textEvents front).halt = none ∧ Assembly.isMarker back = true
      ∧ ∃ first only, load textEvents .empty front = .ok [first] ∧ first.root.isSome = true
        ∧ load textEvents .empty (front ++ back) = .ok [only] ∧ only.root = none := by
  intro front back
  have hfirst : textEvents front
      = ⟨documentEvents [⟨⟨0, 0⟩, .scalar ⟨0, 1⟩ [.char 'a'] true none none, ⟨2, 2⟩⟩], none⟩ := by
    decide +kernel
  have honly : textEvents (front ++ back)
      = ⟨[], some (.failure (unreadable (.char '\x07') 6))⟩ := by decide +kernel
  have hfollows : (textEvents (front ++ back)).Follows ⟨[], none⟩ := by
    rw [honly]
    exact ⟨rfl, rfl, fun _ => rfl⟩
  have hlast : (textEvents (front ++ back)).failure?.bind
      (Assembly.resumeAt ⟨front ++ back, .empty⟩ 0) = none := by decide +kernel
  have hload := Assembly.load_of_last hfollows hlast
  rw [honly] at hload
  exact ⟨by rw [hfirst], by decide +kernel, _, _, Assembly.load_of_complete hfirst, rfl, hload, rfl⟩

/-- A block scalar takes in the marker: `|` in front of `---` is one document. -/
example : (textEvents ("|\n" ++ "---\n")).events = documentEvents
    [⟨⟨0, 0⟩, .scalar ⟨0, 6⟩ "---\n" false none none, ⟨6, 6⟩⟩] := by
  decide +kernel

end YamlSpan
