import YamlSpan.Proofs.ExtendedLexing
import YamlSpan.Proofs.Grammar
import YamlSpan.Proofs.Shift

/-!
# Events of a text that goes on

Two readers whose tokens are the same up to the end of the first text take the same steps there.
Where the first text ends, the second has a marker in its place.  To every goal but one these two
tokens look alike: they begin at the same place and end whatever is open.  Only a document with a
marker tells them apart, and no other goal lies below that one, so the first run is over there.

* `Reader.Twin`        two readers with the same goals, in a text and in one that goes on
* `Reader.meet_twin`   one step, for every goal
* `readEvents_extend`  all steps
-/

namespace YamlSpan

open Cursor

/-- An offset between the start of a text and its end. -/
def UpTo (length : Nat) (i : Int) : Prop := 0 ≤ i ∧ i ≤ length

theorem Mark.to_upTo {n : Nat} {a b : Mark} (ha : a.index ≤ n) (hb : b.index ≤ n) :
    (a.to b).HasEnds (UpTo n) :=
  ⟨⟨Int.natCast_nonneg _, Int.ofNat_le.mpr ha⟩, ⟨Int.natCast_nonneg _, Int.ofNat_le.mpr hb⟩⟩

theorem Cursor.last_index (front : List Char) : (Cursor.start front).last.index = front.length := by
  have hwithin : ((Cursor.start front).forward front.length).Within front :=
    Within.start.forward front.length
  have hnil : ((Cursor.start front).forward front.length).rest = [] := by
    rw [forward_rest]
    exact List.drop_length
  have hindex := hwithin.index
  rw [hnil, hwithin.mark_eq hnil] at hindex
  exact hindex

theorem Ahead.length_le {front : List Char} {tokens tokens' : List ReadyToken}
    (h : Ahead front tokens tokens') : tokens.length ≤ tokens'.length := by
  induction h with
  | stop more => exact Nat.zero_le _
  | last stop version more => exact Nat.succ_le_succ (Nat.zero_le _)
  | cons _ _ ih => exact Nat.succ_le_succ ih

/-! ### the order of goals -/

/-- The goals below which there is no other. -/
def Goal.isOuter : Goal → Bool
  | .anyDocument | .explicitDocument | .documentEnd => true
  | _ => false

/-- Only the lowest goal may be an outer one. -/
def Tidy (goals : List Goal) : Prop := goals.Pairwise fun goal _ => goal.isOuter = false

/-- The goals that a step may leave, for an outer goal or another. -/
def Leads (outer : Bool) (new : List Goal) : Prop :=
  Tidy new ∧ (outer = false → ∀ goal ∈ new, goal.isOuter = false)

instance (goals : List Goal) : Decidable (Tidy goals) :=
  inferInstanceAs (Decidable (goals.Pairwise _))

instance (outer : Bool) (new : List Goal) : Decidable (Leads outer new) :=
  inferInstanceAs (Decidable (_ ∧ _))

theorem Tidy.step {goal : Goal} {goals new : List Goal} (h : Tidy (goal :: goals))
    (hnew : Leads goal.isOuter new) : Tidy (new ++ goals) := by
  obtain ⟨hgoal, hgoals⟩ := List.pairwise_cons.mp h
  refine List.pairwise_append.mpr ⟨hnew.1, hgoals, fun g hg below hbelow => ?_⟩
  exact hnew.2 (hgoal below hbelow) g hg

theorem Tidy.eq_nil {goal : Goal} {goals : List Goal} (h : Tidy (goal :: goals))
    (houter : goal.isOuter = true) : goals = [] := by
  refine List.eq_nil_iff_forall_not_mem.mpr fun below hbelow => ?_
  have hinner := (List.pairwise_cons.mp h).1 below hbelow
  rw [houter] at hinner
  cases hinner

namespace Reader

/-- Two readers with the same goals and handles, in a text and in one that goes on. -/
structure Twin (front : List Char) (goals : List Goal) (r r' : Reader) : Prop where
  tokens : Ahead front r.tokens r'.tokens
  handles : r'.handles = r.handles
  left : r.goals = goals
  right : r'.goals = goals

/-- The next tokens of two readers: the same token, or the end of the first text and the marker. -/
inductive Next (front : List Char) (goals : List Goal) (r r' : Reader) : Token → Token → Prop where
  | same {t : Token} (ht : t.InText front) (hskip : Twin front goals r.skip r'.skip) :
    Next front goals r r' t t
  | last (stop : Mark) (hlast : r.tokens.map (·.token.kind) = [.streamEnd]) :
    Next front goals r r' ⟨.streamEnd, (Cursor.start front).last, (Cursor.start front).last⟩
      ⟨.documentStart, (Cursor.start front).last, stop⟩

/-- The same event in the first text, and twins again. -/
structure SameStep (front : List Char) (outer : Bool) (goals : List Goal)
    (out out' : Option Event × Reader) : Prop where
  event : out'.1 = out.1
  span : ∀ event, out.1 = some event → event.span.HasEnds (UpTo front.length)
  twin : ∃ new, Leads outer new ∧ Twin front (new ++ goals) out.2 out'.2

section
variable {front : List Char} {goals : List Goal} {r r' : Reader} {outer : Bool}

theorem last_to_last (front : List Char) :
    ((Cursor.start front).last.to (Cursor.start front).last).HasEnds (UpTo front.length) :=
  Mark.to_upTo (last_index front).le (last_index front).le

theorem Twin.push (h : Twin front goals r r') (new : List Goal) :
    Twin front (new ++ goals) (r.push new) (r'.push new) :=
  ⟨h.tokens, h.handles, congrArg (new ++ ·) h.left, congrArg (new ++ ·) h.right⟩

theorem Twin.give (h : Twin front goals r r') (event : Event)
    (hevent : event.span.HasEnds (UpTo front.length)) (new : List Goal) (hnew : Leads outer new) :
    Tracks (SameStep front outer goals) (give event (r.push new)) (give event (r'.push new)) := by
  refine .ok ⟨rfl, ?_, new, hnew, h.push new⟩
  rintro _ ⟨⟩
  exact hevent

theorem Twin.pass (h : Twin front goals r r') (new : List Goal) (hnew : Leads outer new) :
    Tracks (SameStep front outer goals) (.ok (none, r.push new)) (.ok (none, r'.push new)) :=
  .ok ⟨rfl, nofun, new, hnew, h.push new⟩

theorem Twin.peekReady (h : Twin front goals r r') :
    Tracks (fun t t' => t'.version = t.version ∧ Next front goals r r' t.token t'.token)
      r.peekReady r'.peekReady := by
  obtain ⟨tokens, halt, handles, goals⟩ := r
  obtain ⟨tokens', halt', handles', goals'⟩ := r'
  cases h.tokens with
  | stop more => exact Tracks.error
  | last stop version more => exact .ok ⟨rfl, .last stop rfl⟩
  | cons ht htail => exact .ok ⟨rfl, .same ht ⟨htail, h.handles, h.left, h.right⟩⟩

theorem Twin.peek (h : Twin front goals r r') :
    Tracks (Next front goals r r') r.peek r'.peek := by
  intro t ht
  unfold Reader.peek at ht ⊢
  cases hready : r.peekReady with
  | error halt =>
    rw [hready] at ht
    cases ht
  | ok ready =>
    rw [hready] at ht
    obtain ⟨ready', hready', -, hnext⟩ := h.peekReady ready hready
    obtain rfl := Except.ok.inj ht
    exact ⟨ready'.token, by rw [hready']; rfl, hnext⟩

/-- The end of the text and the marker are in front of no node, and begin at the same place. -/
theorem Twin.nodeUnless (h : Twin front goals r r') {isFollower : TokenKind → Bool}
    (hend : isFollower .streamEnd = false) (hmarker : isFollower .documentStart = false)
    (node : Goal) (next : List Goal) (hnode : Leads outer (node :: next)) (hnext : Leads outer next)
    {place : Token → Mark} (hplace : ∀ t : Token, t.InText front → (place t).index ≤ front.length) :
    Tracks (SameStep front outer goals) (r.nodeUnless isFollower node next place)
      (r'.nodeUnless isFollower node next place) := by
  unfold Reader.nodeUnless
  refine .bind h.peek ?_
  rintro t _ (⟨ht, hskip⟩ | ⟨stop, hskip⟩)
  · refine .ite (fun _ => ?_) fun _ => h.pass _ hnode
    exact h.give (leftOut (place t)) (Mark.to_upTo (hplace t ht) (hplace t ht)) next hnext
  · simp only [hend, hmarker, Bool.false_eq_true, if_false]
    exact h.pass _ hnode

/-! ### documents -/

theorem skipDocumentEnds_ahead {tokens tokens' : List ReadyToken} (h : Ahead front tokens tokens') :
    Ahead front (skipDocumentEnds tokens) (skipDocumentEnds tokens') := by
  induction h with
  | stop more => exact .stop _
  | last stop version more => exact .last stop version more
  | cons ht h ih =>
    rw [Reader.skipDocumentEnds, Reader.skipDocumentEnds]
    split
    · exact ih
    · exact .cons ht h

theorem readDirectives_twin {halt halt' : Halt} {tokens tokens' : List ReadyToken}
    (h : Ahead front tokens tokens') (p : Prologue) :
    Tracks (fun out out' => out'.1 = out.1 ∧ Ahead front out.2 out'.2)
      (readDirectives halt p tokens) (readDirectives halt' p tokens') := by
  induction h generalizing p with
  | stop more => exact Tracks.error
  | last stop version more => exact .ok ⟨rfl, .last stop version more⟩
  | @cons t tokens tokens' ht h ih =>
    rw [readDirectives, readDirectives]
    cases hkind : t.token.kind with
    | directive d =>
      refine .bind (Tracks.refl (p.add t.token d)) ?_
      rintro p1 _ rfl
      exact ih p1
    | _ => exact .ok ⟨rfl, .cons ht h⟩

theorem anyDocument_twin (h : Twin front goals r r') :
    Tracks (SameStep front true goals) r.anyDocument r'.anyDocument := by
  have hexplicit := h.pass [.explicitDocument] (show Leads true _ by decide)
  unfold anyDocument
  refine .bind h.peek ?_
  rintro t _ (⟨ht, hskip⟩ | ⟨stop, hskip⟩)
  · have hstandard : Twin front goals { r with handles := .standard }
        { r' with handles := .standard } := ⟨h.tokens, rfl, h.left, h.right⟩
    have hnode := hstandard.give (.documentStart (t.start.to t.start))
      (Mark.to_upTo ht.start ht.start) [.node true false, .documentEnd]
      (show Leads true _ by decide)
    cases t.kind with
    | directive d => exact hexplicit
    | documentStart => exact hexplicit
    | streamEnd => exact hexplicit
    | _ => exact hnode
  · exact hexplicit

theorem documentContent_twin (h : Twin front goals r r') :
    Tracks (SameStep front false goals) r.documentContent r'.documentContent := by
  unfold documentContent
  refine .bind h.peek ?_
  rintro t _ (⟨ht, hskip⟩ | ⟨stop, hskip⟩)
  · have hnone := h.give (leftOut t.start) (Mark.to_upTo ht.start ht.start) []
      (show Leads false _ by decide)
    have hnode := h.pass [.node true false] (show Leads false _ by decide)
    cases t.kind with
    | directive d => exact hnone
    | documentStart => exact hnone
    | documentEnd => exact hnone
    | streamEnd => exact hnone
    | _ => exact hnode
  · exact h.give (leftOut _) (last_to_last front) [] (by decide)

theorem documentEnd_twin (h : Twin front goals r r') :
    Tracks (SameStep front true goals) r.documentEnd r'.documentEnd := by
  unfold documentEnd
  refine .bind h.peek ?_
  rintro t _ (⟨ht, hskip⟩ | ⟨stop, -⟩)
  · refine .ite (fun hkind => ?_) fun _ => ?_
    · refine .bind hskip.peekReady ?_
      rintro ⟨next, version⟩ ⟨next', version'⟩ ⟨hversion, hnext⟩
      obtain rfl : version = version' := hversion.symm
      have hlead : Leads true [if version = .older then .explicitDocument else .anyDocument] := by
        split <;> decide
      have hgive := hskip.give (.documentEnd (t.start.to t.stop)) (Mark.to_upTo ht.start ht.stop)
        [if version = .older then .explicitDocument else .anyDocument] hlead
      cases hnext with
      | same hnext => exact .ite (fun _ => Tracks.error) fun _ => hgive
      | last stop =>
        -- the marker begins a line
        have hline : (t.stop.line == (Cursor.start front).last.line) = false :=
          beq_false_of_ne (ht.line hkind).ne
        simp only [hline, Bool.and_false, Bool.false_eq_true, if_false]
        exact hgive
    · exact h.give (.documentEnd (t.start.to t.start)) (Mark.to_upTo ht.start ht.start)
        [.explicitDocument] (by decide)
  · exact h.give (.documentEnd (Mark.to _ _)) (last_to_last front) [.explicitDocument] (by decide)

/-- Only a document with a marker tells the end of the text from the marker, and there the first
reader has nothing more to read. -/
theorem explicitDocument_twin (h : Twin front goals r r') :
    (∃ r1, r.explicitDocument = .ok (none, r1) ∧ r1.goals = goals)
      ∨ Tracks (SameStep front true goals) r.explicitDocument r'.explicitDocument := by
  have h1 : Twin front goals { r with tokens := skipDocumentEnds r.tokens }
      { r' with tokens := skipDocumentEnds r'.tokens } :=
    ⟨skipDocumentEnds_ahead h.tokens, h.handles, h.left, h.right⟩
  unfold explicitDocument
  generalize ({ r with tokens := skipDocumentEnds r.tokens } : Reader) = r1 at h1 ⊢
  generalize ({ r' with tokens := skipDocumentEnds r'.tokens } : Reader) = r1' at h1 ⊢
  by_cases hlast : r1.tokens.map (·.token.kind) = [.streamEnd]
  · obtain ⟨t, htokens, hkind⟩ := List.map_eq_singleton_iff.mp hlast
    have hpeek : r1.peek = .ok t.token := by
      unfold Reader.peek Reader.peekReady
      rw [htokens]
      rfl
    refine .inl ⟨r1, ?_, h1.left⟩
    simp only [hpeek]
    exact if_pos hkind
  · refine .inr (.bind h1.peek ?_)
    rintro t _ (⟨ht, -⟩ | ⟨stop, hend⟩)
    · refine .ite (fun _ => h1.pass [] (by decide)) fun _ => ?_
      refine .bind (readDirectives_twin h1.tokens ⟨none, []⟩) ?_
      rintro ⟨p, tokens⟩ ⟨p', tokens'⟩ ⟨hp, htokens⟩
      obtain rfl : p = p' := hp.symm
      refine .bind (Tracks.refl p.check) ?_
      rintro _ _ -
      have h2 : Twin front goals ⟨tokens, r1.halt, p.handles ++ Handles.standard, r1.goals⟩
          ⟨tokens', r1'.halt, p.handles ++ Handles.standard, r1'.goals⟩ :=
        ⟨htokens, rfl, h1.left, h1.right⟩
      refine .bind h2.peek ?_
      rintro t2 _ (⟨ht2, hskip2⟩ | ⟨stop, -⟩)
      · refine .ite (fun _ => ?_) fun _ => Tracks.error
        exact hskip2.give (.documentStart t2.span) (Mark.to_upTo ht2.start ht2.stop)
          [.documentContent, .documentEnd] (by decide)
      · exact Tracks.error
    · exact absurd hend hlast

/-! ### nodes -/

theorem resolveTag_twin (h : Twin front goals r r') (mark : Mark) (handle : Option String)
    (suffix : String) : r'.resolveTag mark handle suffix = r.resolveTag mark handle suffix := by
  unfold resolveTag
  rw [h.handles]

/-- The same properties, inside of the text. -/
structure SameProperties (front : List Char) (goals : List Goal)
    (out out' : Properties × Reader) : Prop where
  properties : out'.1 = out.1
  place : ∀ start stop, out.1.place = some (start, stop) →
    start.index ≤ front.length ∧ stop.index ≤ front.length
  twin : Twin front goals out.2 out'.2

theorem SameProperties.of_place {p : Properties} {start stop : Mark} (h : Twin front goals r r')
    (hp : p.place = some (start, stop)) (hstart : start.index ≤ front.length)
    (hstop : stop.index ≤ front.length) : SameProperties front goals (p, r) (p, r') := by
  refine ⟨rfl, fun start' stop' hplace => ?_, h⟩
  obtain ⟨rfl, rfl⟩ := Prod.mk.inj (Option.some.inj (hp.symm.trans hplace))
  exact ⟨hstart, hstop⟩

theorem readProperties_twin (h : Twin front goals r r') :
    Tracks (SameProperties front goals) r.readProperties r'.readProperties := by
  have hnone : Tracks (SameProperties front goals) (.ok (⟨none, none, none⟩, r))
      (.ok (⟨none, none, none⟩, r')) := .ok ⟨rfl, nofun, h⟩
  unfold readProperties
  refine .bind h.peek ?_
  rintro t _ (⟨ht, hskip⟩ | ⟨stop, -⟩)
  · cases t.kind with
    | anchor name =>
      refine .bind hskip.peek ?_
      have halone : Tracks (SameProperties front goals)
          (.ok (⟨some name, none, some (t.start, t.stop)⟩, r.skip))
          (.ok (⟨some name, none, some (t.start, t.stop)⟩, r'.skip)) :=
        .ok (.of_place hskip rfl ht.start ht.stop)
      rintro next _ (⟨hnext, hskip1⟩ | ⟨stop, -⟩)
      · cases next.kind with
        | tag handle suffix =>
          simp only [resolveTag_twin hskip]
          refine .bind (Tracks.refl _) ?_
          rintro tag _ rfl
          exact .ok (.of_place hskip1 rfl ht.start hnext.stop)
        | _ => exact halone
      · exact halone
    | tag handle suffix =>
      refine .bind hskip.peek ?_
      have halone : Tracks (SameProperties front goals)
          (r.skip.resolveTag t.start handle suffix >>= fun tag =>
            pure (⟨none, some tag, some (t.start, t.stop)⟩, r.skip))
          (r'.skip.resolveTag t.start handle suffix >>= fun tag =>
            pure (⟨none, some tag, some (t.start, t.stop)⟩, r'.skip)) := by
        rw [resolveTag_twin hskip]
        refine .bind (Tracks.refl _) ?_
        rintro tag _ rfl
        exact .ok (.of_place hskip rfl ht.start ht.stop)
      rintro next _ (⟨hnext, hskip1⟩ | ⟨stop, -⟩)
      · cases next.kind with
        | anchor name =>
          simp only [resolveTag_twin hskip]
          refine .bind (Tracks.refl _) ?_
          rintro tag _ rfl
          exact .ok (.of_place hskip1 rfl hnext.start hnext.stop)
        | _ => exact halone
      · exact halone
    | _ => exact hnone
  · exact hnone

theorem readContent_twin {p : Properties} (h : Twin front goals r r')
    (hplace : ∀ start stop, p.place = some (start, stop) →
      start.index ≤ front.length ∧ stop.index ≤ front.length) (block indentless : Bool) :
    Tracks (SameStep front false goals) (r.readContent block indentless p)
      (r'.readContent block indentless p) := by
  -- where the node starts, and where its properties stop
  have hstart : ∀ {t : Token}, t.start.index ≤ front.length →
      (p.place.getD (t.start, t.start)).1.index ≤ front.length
        ∧ (p.place.getD (t.start, t.start)).2.index ≤ front.length := by
    intro t ht
    cases hp : p.place with
    | none => exact ⟨ht, ht⟩
    | some place => exact hplace place.1 place.2 hp
  unfold readContent
  refine .bind h.peek ?_
  rintro t _ (⟨ht, hskip⟩ | ⟨stop, -⟩)
  · obtain ⟨hfrom, hto⟩ := hstart ht.start
    generalize p.place.getD (t.start, t.start) = place at hfrom hto
    have hopen := Mark.to_upTo hfrom ht.start
    have hclose := Mark.to_upTo hfrom ht.stop
    cases t.kind with
    | scalar value plain =>
      exact hskip.give (.scalar _ value plain p.anchor p.tag) hclose [] (by decide)
    | flowSequenceStart =>
      exact hskip.give (.sequenceStart _ p.anchor p.tag) hclose [.flowItems true] (by decide)
    | flowMappingStart =>
      exact hskip.give (.mappingStart _ p.anchor p.tag) hclose [.flowKey true] (by decide)
    | _ =>
      refine .ite (fun _ => ?_) fun _ => .ite (fun _ => ?_) fun _ => .ite (fun _ => ?_) fun _ =>
        .ite (fun _ => ?_) fun _ => Tracks.error
      · exact h.give (.sequenceStart _ p.anchor p.tag) hclose [.indentlessItems] (by decide)
      · exact hskip.give (.sequenceStart _ p.anchor p.tag) hopen [.blockItems] (by decide)
      · exact hskip.give (.mappingStart _ p.anchor p.tag) hopen [.blockKey] (by decide)
      · exact h.give (.scalar _ [] true p.anchor p.tag) (Mark.to_upTo hfrom hto) [] (by decide)
  · let last := (Cursor.start front).last
    obtain ⟨hfrom, hto⟩ := @hstart ⟨.streamEnd, last, last⟩ (last_index front).le
    simp only [reduceCtorEq, decide_false, Bool.and_false, Bool.false_eq_true, if_false]
    refine .ite (fun _ => ?_) fun _ => Tracks.error
    exact h.give (.scalar _ [] true p.anchor p.tag) (Mark.to_upTo hfrom hto) [] (by decide)

theorem readNode_twin (h : Twin front goals r r') (block indentless : Bool) :
    Tracks (SameStep front false goals) (r.readNode block indentless)
      (r'.readNode block indentless) := by
  have hcontent : Tracks (SameStep front false goals)
      (r.readProperties >>= fun out => out.2.readContent block indentless out.1)
      (r'.readProperties >>= fun out => out.2.readContent block indentless out.1) := by
    refine .bind (readProperties_twin h) ?_
    rintro ⟨p, r1⟩ ⟨p', r1'⟩ hproperties
    obtain rfl : p = p' := hproperties.properties.symm
    exact readContent_twin hproperties.twin hproperties.place block indentless
  unfold readNode
  refine .bind h.peek ?_
  rintro t _ (⟨ht, hskip⟩ | ⟨stop, -⟩)
  · cases t.kind with
    | reference name =>
      exact hskip.give (.reference t.span name) (Mark.to_upTo ht.start ht.stop) [] (by decide)
    | _ => exact hcontent
  · exact hcontent

/-! ### block collections -/

theorem blockItems_twin (h : Twin front goals r r') :
    Tracks (SameStep front false goals) r.blockItems r'.blockItems := by
  unfold blockItems
  refine .bind h.peek ?_
  rintro t _ (⟨ht, hskip⟩ | ⟨stop, -⟩)
  · refine .ite (fun _ => ?_) fun _ => .ite (fun _ => ?_) fun _ => Tracks.error
    · exact hskip.nodeUnless rfl rfl _ _ (by decide) (by decide) fun _ _ => ht.stop
    · exact hskip.give (.sequenceEnd t.span) (Mark.to_upTo ht.start ht.stop) [] (by decide)
  · exact Tracks.error

theorem indentlessItems_twin (h : Twin front goals r r') :
    Tracks (SameStep front false goals) r.indentlessItems r'.indentlessItems := by
  unfold indentlessItems
  refine .bind h.peek ?_
  rintro t _ (⟨ht, hskip⟩ | ⟨stop, -⟩)
  · refine .ite (fun _ => ?_) fun _ => ?_
    · exact hskip.nodeUnless rfl rfl _ _ (by decide) (by decide) fun _ _ => ht.stop
    · exact h.give (.sequenceEnd (t.start.to t.start)) (Mark.to_upTo ht.start ht.start) []
        (by decide)
  · exact h.give (.sequenceEnd (Mark.to _ _)) (last_to_last front) [] (by decide)

theorem blockKey_twin (h : Twin front goals r r') :
    Tracks (SameStep front false goals) r.blockKey r'.blockKey := by
  unfold blockKey
  refine .bind h.peekReady ?_
  rintro ⟨t, version⟩ ⟨t', version'⟩ ⟨hversion, hnext⟩
  obtain rfl : version = version' := hversion.symm
  cases hnext with
  | same ht hskip =>
    refine .ite (fun _ => ?_) fun _ => .ite (fun _ => ?_) fun _ => .ite (fun _ => ?_) fun _ =>
      Tracks.error
    · exact hskip.nodeUnless rfl rfl _ _ (by decide) (by decide) fun _ _ => ht.stop
    · exact h.give (leftOut t.start) (Mark.to_upTo ht.start ht.start) [.blockValue] (by decide)
    · exact hskip.give (.mappingEnd t.span) (Mark.to_upTo ht.start ht.stop) [] (by decide)
  | last stop hskip =>
    simp only [reduceCtorEq, decide_false, Bool.and_false, Bool.false_eq_true, if_false]
    exact Tracks.error

theorem blockValue_twin (h : Twin front goals r r') :
    Tracks (SameStep front false goals) r.blockValue r'.blockValue := by
  unfold blockValue
  refine .bind h.peek ?_
  rintro t _ (⟨ht, hskip⟩ | ⟨stop, -⟩)
  · refine .ite (fun _ => ?_) fun _ => ?_
    · exact hskip.nodeUnless rfl rfl _ _ (by decide) (by decide) fun _ ht' => ht'.stop
    · exact h.give (leftOut t.start) (Mark.to_upTo ht.start ht.start) [.blockKey] (by decide)
  · exact h.give (leftOut _) (last_to_last front) [.blockKey] (by decide)

/-! ### flow collections -/

theorem skipComma_twin (h : Twin front goals r r') (first : Bool) (closing : TokenKind)
    (hend : closing ≠ .streamEnd) (hmarker : closing ≠ .documentStart) (p : String → Problem) :
    Tracks (Twin front goals) (r.skipComma first closing p) (r'.skipComma first closing p) := by
  unfold skipComma
  refine .bind h.peek ?_
  rintro t _ (⟨ht, hskip⟩ | ⟨stop, -⟩)
  · exact .ite (fun _ => .ok h) fun _ => .ite (fun _ => .ok hskip) fun _ => Tracks.error
  · simp only [hend.symm, hmarker.symm, decide_false, Bool.or_false]
    exact .ite (fun _ => .ok h) fun _ => Tracks.error

theorem flowItems_twin (h : Twin front goals r r') (first : Bool) :
    Tracks (SameStep front false goals) (r.flowItems first) (r'.flowItems first) := by
  unfold flowItems
  refine .bind (skipComma_twin h first .flowSequenceEnd nofun nofun _) ?_
  intro r1 r1' h1
  refine .bind h1.peek ?_
  rintro t _ (⟨ht, hskip⟩ | ⟨stop, -⟩)
  · refine .ite (fun _ => ?_) fun _ => .ite (fun _ => ?_) fun _ => ?_
    · exact hskip.give (.sequenceEnd t.span) (Mark.to_upTo ht.start ht.stop) [] (by decide)
    · exact h1.give (.mappingStart t.span none none) (Mark.to_upTo ht.start ht.stop)
        [.pairKey, .flowItems false] (by decide)
    · exact h1.pass [.node false false, .flowItems false] (by decide)
  · exact h1.pass [.node false false, .flowItems false] (by decide)

theorem pairKey_twin (h : Twin front goals r r') :
    Tracks (SameStep front false goals) r.pairKey r'.pairKey := by
  unfold pairKey
  refine .bind h.peek ?_
  rintro t _ (⟨ht, hskip⟩ | ⟨stop, hlast⟩)
  · exact hskip.nodeUnless rfl rfl _ _ (by decide) (by decide) fun _ _ => ht.stop
  · -- behind the end of the text there is nothing
    obtain ⟨t, htokens, -⟩ := List.map_eq_singleton_iff.mp hlast
    unfold nodeUnless Reader.peek Reader.peekReady skip
    rw [htokens]
    exact Tracks.error

theorem pairValue_twin (h : Twin front goals r r') :
    Tracks (SameStep front false goals) r.pairValue r'.pairValue := by
  unfold pairValue
  refine .bind h.peek ?_
  rintro t _ (⟨ht, hskip⟩ | ⟨stop, -⟩)
  · refine .ite (fun _ => ?_) fun _ => ?_
    · exact hskip.nodeUnless rfl rfl _ _ (by decide) (by decide) fun _ _ => ht.stop
    · exact h.give (leftOut t.start) (Mark.to_upTo ht.start ht.start) [.pairEnd] (by decide)
  · exact h.give (leftOut _) (last_to_last front) [.pairEnd] (by decide)

theorem pairEnd_twin (h : Twin front goals r r') :
    Tracks (SameStep front false goals) r.pairEnd r'.pairEnd := by
  unfold pairEnd
  refine .bind h.peek ?_
  rintro t _ (⟨ht, hskip⟩ | ⟨stop, -⟩)
  · exact h.give (.mappingEnd (t.start.to t.start)) (Mark.to_upTo ht.start ht.start) []
      (by decide)
  · exact h.give (.mappingEnd (Mark.to _ _)) (last_to_last front) [] (by decide)

theorem flowKey_twin (h : Twin front goals r r') (first : Bool) :
    Tracks (SameStep front false goals) (r.flowKey first) (r'.flowKey first) := by
  unfold flowKey
  refine .bind (skipComma_twin h first .flowMappingEnd nofun nofun _) ?_
  intro r1 r1' h1
  refine .bind h1.peekReady ?_
  rintro ⟨t, version⟩ ⟨t', version'⟩ ⟨hversion, hnext⟩
  obtain rfl : version = version' := hversion.symm
  cases hnext with
  | same ht hskip =>
    refine .ite (fun _ => ?_) fun _ => .ite (fun _ => ?_) fun _ => .ite (fun _ => ?_) fun _ => ?_
    · exact hskip.give (.mappingEnd t.span) (Mark.to_upTo ht.start ht.stop) [] (by decide)
    · exact hskip.nodeUnless rfl rfl _ _ (by decide) (by decide) fun _ _ => ht.stop
    · exact h1.give (leftOut t.stop) (Mark.to_upTo ht.stop ht.stop) [.flowValue] (by decide)
    · exact h1.pass [.node false false, .flowNoValue] (by decide)
  | last stop hskip =>
    simp only [reduceCtorEq, decide_false, Bool.and_false, Bool.false_eq_true, if_false]
    exact h1.pass [.node false false, .flowNoValue] (by decide)

theorem flowValue_twin (h : Twin front goals r r') :
    Tracks (SameStep front false goals) r.flowValue r'.flowValue := by
  unfold flowValue
  refine .bind h.peek ?_
  rintro t _ (⟨ht, hskip⟩ | ⟨stop, -⟩)
  · refine .ite (fun _ => ?_) fun _ => ?_
    · exact hskip.nodeUnless rfl rfl _ _ (by decide) (by decide) fun _ _ => ht.stop
    · exact h.give (leftOut t.start) (Mark.to_upTo ht.start ht.start) [.flowKey false]
        (by decide)
  · exact h.give (leftOut _) (last_to_last front) [.flowKey false] (by decide)

theorem flowNoValue_twin (h : Twin front goals r r') :
    Tracks (SameStep front false goals) r.flowNoValue r'.flowNoValue := by
  unfold flowNoValue
  refine .bind h.peek ?_
  rintro t _ (⟨ht, hskip⟩ | ⟨stop, -⟩)
  · exact h.give (leftOut t.start) (Mark.to_upTo ht.start ht.start) [.flowKey false] (by decide)
  · exact h.give (leftOut _) (last_to_last front) [.flowKey false] (by decide)

/-! ### all goals -/

/-- One step is the same for both readers, unless it is the last of the first. -/
theorem meet_twin (h : Twin front goals r r') (goal : Goal) :
    (goal = .explicitDocument ∧ ∃ r1, r.meet goal = .ok (none, r1) ∧ r1.goals = goals)
      ∨ Tracks (SameStep front goal.isOuter goals) (r.meet goal) (r'.meet goal) := by
  cases goal with
  | anyDocument => exact .inr (anyDocument_twin h)
  | explicitDocument => exact (explicitDocument_twin h).imp (fun hlast => ⟨rfl, hlast⟩) id
  | documentContent => exact .inr (documentContent_twin h)
  | documentEnd => exact .inr (documentEnd_twin h)
  | node block indentless => exact .inr (readNode_twin h block indentless)
  | blockItems => exact .inr (blockItems_twin h)
  | indentlessItems => exact .inr (indentlessItems_twin h)
  | blockKey => exact .inr (blockKey_twin h)
  | blockValue => exact .inr (blockValue_twin h)
  | flowItems first => exact .inr (flowItems_twin h first)
  | pairKey => exact .inr (pairKey_twin h)
  | pairValue => exact .inr (pairValue_twin h)
  | pairEnd => exact .inr (pairEnd_twin h)
  | flowKey first => exact .inr (flowKey_twin h first)
  | flowValue => exact .inr (flowValue_twin h)
  | flowNoValue => exact .inr (flowNoValue_twin h)

end

/-! ### all steps -/

theorem readFrom_nil (fuel : Nat) {r : Reader} (h : r.goals = []) :
    readFrom fuel r = ⟨[], none⟩ := by
  cases fuel with
  | zero => rfl
  | succ fuel =>
    obtain ⟨tokens, halt, handles, goals⟩ := r
    obtain rfl : goals = [] := h
    rfl

/-- The events of the first reader are in front of those of the second, if nothing stops them. -/
theorem readFrom_twin {front : List Char} {fuel fuel' : Nat} (hfuel : fuel ≤ fuel') {r r' : Reader}
    {goals : List Goal} (h : Twin front goals r r') (htidy : Tidy goals)
    (hhalt : (readFrom fuel r).halt = none) :
    (readFrom fuel r).events <+: (readFrom fuel' r').events
      ∧ ∀ event ∈ (readFrom fuel r).events, event.span.HasEnds (UpTo front.length) := by
  induction fuel generalizing fuel' r r' goals with
  | zero => exact ⟨List.nil_prefix, List.forall_mem_nil _⟩
  | succ fuel ih =>
    obtain ⟨fuel', rfl⟩ : ∃ n, fuel' = n + 1 := ⟨fuel' - 1, by omega⟩
    obtain ⟨tokens, halt, handles, stack⟩ := r
    obtain ⟨tokens', halt', handles', stack'⟩ := r'
    obtain rfl : goals = stack := h.left.symm
    obtain rfl : goals = stack' := h.right.symm
    cases goals with
    | nil => exact ⟨List.nil_prefix, List.forall_mem_nil _⟩
    | cons goal goals =>
      let r : Reader := ⟨tokens, halt, handles, goals⟩
      let r' : Reader := ⟨tokens', halt', handles', goals⟩
      have hbelow : Twin front goals r r' := ⟨h.tokens, h.handles, rfl, rfl⟩
      cases hmeet : r.meet goal with
      | error halt =>
        rw [readFrom_of_error fuel hmeet] at hhalt
        cases hhalt
      | ok out =>
        obtain ⟨event, r1⟩ := out
        rw [readFrom_of_ok fuel hmeet] at hhalt ⊢
        rcases meet_twin hbelow goal with ⟨rfl, r2, hlast, hgoals⟩ | hstep
        · -- nothing lies below a document with a marker
          obtain ⟨rfl, rfl⟩ := Prod.mk.inj (Except.ok.inj (hmeet.symm.trans hlast))
          rw [htidy.eq_nil rfl] at hgoals
          rw [readFrom_nil fuel hgoals]
          exact ⟨List.nil_prefix, List.forall_mem_nil _⟩
        · obtain ⟨⟨event', r1'⟩, hmeet', hsame⟩ := hstep _ hmeet
          obtain rfl : event = event' := hsame.event.symm
          obtain ⟨new, hnew, htwin⟩ := hsame.twin
          rw [readFrom_of_ok fuel' hmeet']
          obtain ⟨hevents, hspans⟩ :=
            ih (Nat.le_of_succ_le_succ hfuel) htwin (htidy.step hnew) hhalt
          refine ⟨(List.prefix_append_right_inj _).mpr hevents, fun e he => ?_⟩
          rcases List.mem_append.mp he with hevent | hmore
          · exact hsame.span e (Option.mem_toList.mp hevent)
          · exact hspans e hmore

end Reader

/-- **The events of a text are in front of those of a text that goes on with a marker.** -/
theorem readEvents_extend {front back : List Char} (h : Continues front back)
    (hbare : endsInBareBlock front = false)
    (hhalt : (readEvents (lex front)).halt = none) :
    (readEvents (lex front)).events <+: (readEvents (lex (front ++ back))).events
      ∧ ∀ event ∈ (readEvents (lex front)).events, event.span.HasEnds (UpTo front.length) := by
  have hahead := lex_extend h hbare
  generalize lex front = run at hahead hhalt ⊢
  generalize lex (front ++ back) = run' at hahead ⊢
  have htwin : Reader.Twin front [.anyDocument] (Reader.start run) (Reader.start run') :=
    ⟨hahead, rfl, rfl, rfl⟩
  have hlength := hahead.length_le
  have hfuel : 8 * (run.tokens.length + 4) ≤ 8 * (run'.tokens.length + 4) := by omega
  exact Reader.readFrom_twin hfuel htwin (by decide) hhalt

end YamlSpan
