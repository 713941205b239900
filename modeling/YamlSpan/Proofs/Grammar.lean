import YamlSpan.Event.Grammar
import YamlSpan.Proofs.Lexing
import YamlSpan.Proofs.Stream

/-!
# Goals lead to documents

A goal stands for the events that it may lead to, and a stack of goals for those of its goals one
after the other.  A step replaces the goal on top by others, and the event of the step with what
they lead to is what the goal leads to.  So the events of a whole run are documents, and those of a
run that stops are the front of documents.

* `Goal.Yields`        the events that a goal leads to
* `Reader.Meets`       what a step does
* `Reader.meet_meets`  one step, for every goal
* `readEvents_reads`   all steps

Each step takes a token or leaves lighter goals.  The one exception is a key that was left out in
front of a colon: then the goal of its value has the colon in front of it, and weighs less there.
-/

namespace YamlSpan

open EventTree

/-! ### what goals lead to -/

/-- The events of a node. -/
def IsNode (es : List Event) : Prop := ∃ tree : EventTree, es = tree.events

/-- The events of items, and the end of their sequence. -/
def AreItems (es : List Event) : Prop := ∃ items stop, es = itemEvents items ++ [.sequenceEnd stop]

/-- The events of keys and values, and the end of their mapping. -/
def ArePairs (es : List Event) : Prop := ∃ pairs stop, es = pairEvents pairs ++ [.mappingEnd stop]

/-- The events of whole documents. -/
def AreDocuments (es : List Event) : Prop := ∃ documents, es = documentEvents documents

/-- The events that a goal leads to. -/
def Goal.Yields : Goal → List Event → Prop
  | .anyDocument, es => AreDocuments es
  | .explicitDocument, es => AreDocuments es
  | .documentContent, es => IsNode es
  | .documentEnd, es => ∃ span rest, es = .documentEnd span :: rest ∧ AreDocuments rest
  | .node .., es => IsNode es
  | .blockItems, es => AreItems es
  | .indentlessItems, es => AreItems es
  | .blockKey, es => ArePairs es
  | .blockValue, es => ∃ value rest, es = value ++ rest ∧ IsNode value ∧ ArePairs rest
  | .flowItems _, es => AreItems es
  | .pairKey, es => ∃ key value stop, es = key ++ (value ++ [.mappingEnd stop])
      ∧ IsNode key ∧ IsNode value
  | .pairValue, es => ∃ value stop, es = value ++ [.mappingEnd stop] ∧ IsNode value
  | .pairEnd, es => ∃ stop, es = [.mappingEnd stop]
  | .flowKey _, es => ArePairs es
  | .flowValue, es => ∃ value rest, es = value ++ rest ∧ IsNode value ∧ ArePairs rest
  | .flowNoValue, es => ∃ value rest, es = value ++ rest ∧ IsNode value ∧ ArePairs rest

/-- The events that goals lead to, one after the other. -/
def Yields : List Goal → List Event → Prop
  | [], es => es = []
  | goal :: goals, es => ∃ front back, es = front ++ back ∧ goal.Yields front ∧ Yields goals back

theorem yields_single {goal : Goal} {es : List Event} : Yields [goal] es ↔ goal.Yields es := by
  constructor
  · rintro ⟨front, back, rfl, hfront, rfl⟩
    rwa [List.append_nil]
  · intro h
    exact ⟨es, [], (List.append_nil es).symm, h, rfl⟩

theorem yields_append {a b : List Goal} {es : List Event} :
    Yields (a ++ b) es ↔ ∃ front back, es = front ++ back ∧ Yields a front ∧ Yields b back := by
  induction a generalizing es with
  | nil =>
    constructor
    · intro h
      exact ⟨[], es, rfl, rfl, h⟩
    · rintro ⟨front, back, rfl, rfl, hb⟩
      exact hb
  | cons goal a ih =>
    constructor
    · rintro ⟨front, back, rfl, hgoal, hrest⟩
      obtain ⟨middle, back, rfl, ha, hb⟩ := ih.mp hrest
      exact ⟨front ++ middle, back, (List.append_assoc ..).symm, ⟨front, middle, rfl, hgoal, ha⟩,
        hb⟩
    · rintro ⟨_, back, rfl, ⟨front, middle, rfl, hgoal, ha⟩, hb⟩
      exact ⟨front, middle ++ back, List.append_assoc .., hgoal, ih.mpr ⟨middle, back, rfl, ha, hb⟩⟩

theorem isNode_leftOut (m : Mark) : IsNode [leftOut m] :=
  ⟨.scalar (m.to m) [] true none none, rfl⟩

theorem areItems_nil (stop : Span) : AreItems [.sequenceEnd stop] := ⟨[], stop, rfl⟩

theorem arePairs_nil (stop : Span) : ArePairs [.mappingEnd stop] := ⟨[], stop, rfl⟩

theorem areDocuments_nil : AreDocuments [] := ⟨[], rfl⟩

theorem IsNode.item {item rest : List Event} (hitem : IsNode item) (hrest : AreItems rest) :
    AreItems (item ++ rest) := by
  obtain ⟨tree, rfl⟩ := hitem
  obtain ⟨items, stop, rfl⟩ := hrest
  exact ⟨tree :: items, stop, by rw [itemEvents, List.append_assoc]⟩

theorem IsNode.pair {key value rest : List Event} (hkey : IsNode key) (hvalue : IsNode value)
    (hrest : ArePairs rest) : ArePairs (key ++ (value ++ rest)) := by
  obtain ⟨k, rfl⟩ := hkey
  obtain ⟨v, rfl⟩ := hvalue
  obtain ⟨pairs, stop, rfl⟩ := hrest
  exact ⟨(k, v) :: pairs, stop, by simp only [pairEvents, List.append_assoc]⟩

/-- A key in front of its value and of the other pairs. -/
theorem IsNode.key {key es : List Event} (hkey : IsNode key)
    (hes : ∃ value rest, es = value ++ rest ∧ IsNode value ∧ ArePairs rest) :
    ArePairs (key ++ es) := by
  obtain ⟨value, rest, rfl, hvalue, hrest⟩ := hes
  exact hkey.pair hvalue hrest

theorem AreItems.node {es : List Event} (h : AreItems es) (start : Span)
    (anchor tag : Option String) : IsNode (.sequenceStart start anchor tag :: es) := by
  obtain ⟨items, stop, rfl⟩ := h
  exact ⟨.sequence start anchor tag items stop, rfl⟩

theorem ArePairs.node {es : List Event} (h : ArePairs es) (start : Span)
    (anchor tag : Option String) : IsNode (.mappingStart start anchor tag :: es) := by
  obtain ⟨pairs, stop, rfl⟩ := h
  exact ⟨.mapping start anchor tag pairs stop, rfl⟩

theorem IsNode.document {root rest : List Event} (hroot : IsNode root) (hrest : AreDocuments rest)
    (start stop : Span) :
    AreDocuments (.documentStart start :: (root ++ .documentEnd stop :: rest)) := by
  obtain ⟨tree, rfl⟩ := hroot
  obtain ⟨documents, rfl⟩ := hrest
  exact ⟨⟨start, tree, stop⟩ :: documents, by
    simp [documentEvents, EventDocument.events]⟩

/-- Every goal leads to something, so that what was read in front of a defect can be completed. -/
theorem Goal.exists_yields (goal : Goal) : ∃ es, goal.Yields es := by
  have hnode : IsNode [leftOut ⟨0, 0, 0⟩] := isNode_leftOut _
  have hpairs : ArePairs [.mappingEnd ⟨0, 0⟩] := arePairs_nil _
  cases goal with
  | anyDocument | explicitDocument => exact ⟨_, areDocuments_nil⟩
  | documentContent | node => exact ⟨_, hnode⟩
  | documentEnd => exact ⟨_, ⟨0, 0⟩, [], rfl, areDocuments_nil⟩
  | blockItems | indentlessItems | flowItems => exact ⟨_, areItems_nil ⟨0, 0⟩⟩
  | blockKey | flowKey => exact ⟨_, hpairs⟩
  | blockValue | flowValue | flowNoValue => exact ⟨_, _, _, rfl, hnode, hpairs⟩
  | pairKey => exact ⟨_, _, _, ⟨0, 0⟩, rfl, hnode, hnode⟩
  | pairValue => exact ⟨_, _, ⟨0, 0⟩, rfl, hnode⟩
  | pairEnd => exact ⟨_, ⟨0, 0⟩, rfl⟩

theorem exists_yields (goals : List Goal) : ∃ es, Yields goals es := by
  induction goals with
  | nil => exact ⟨[], rfl⟩
  | cons goal goals ih =>
    obtain ⟨front, hfront⟩ := goal.exists_yields
    obtain ⟨back, hback⟩ := ih
    exact ⟨front ++ back, front, back, rfl, hfront, hback⟩

/-! ### what is left to do -/

/-- How many steps a goal may take before the next token is taken. -/
def Goal.weight : Goal → Nat
  | .anyDocument => 7
  | .explicitDocument => 1
  | .documentContent => 5
  | .documentEnd => 2
  | .node .. => 4
  | .blockItems => 1
  | .indentlessItems => 1
  | .blockKey => 2
  | .blockValue => 3
  | .flowItems first => if first then 6 else 1
  | .pairKey => 1
  | .pairValue => 2
  | .pairEnd => 1
  | .flowKey first => if first then 7 else 1
  | .flowValue => 2
  | .flowNoValue => 2

/-- The weight of the goal on top, which depends on the next token. -/
def Goal.weightAt (next : Option TokenKind) (goal : Goal) : Nat :=
  if goal = .blockValue ∧ next = some .value then 1 else goal.weight

def goalsWeight : List Goal → Nat
  | [] => 0
  | goal :: goals => goal.weight + goalsWeight goals

def goalsWeightAt (next : Option TokenKind) : List Goal → Nat
  | [] => 0
  | goal :: goals => goal.weightAt next + goalsWeight goals

theorem goalsWeightAt_nil (next : Option TokenKind) : goalsWeightAt next [] = 0 := rfl

theorem goalsWeightAt_cons (next : Option TokenKind) (goal : Goal) (goals : List Goal) :
    goalsWeightAt next (goal :: goals) = goal.weightAt next + goalsWeight goals := rfl

theorem goalsWeight_append (a b : List Goal) :
    goalsWeight (a ++ b) = goalsWeight a + goalsWeight b := by
  induction a with
  | nil => exact (Nat.zero_add _).symm
  | cons goal a ih => rw [List.cons_append, goalsWeight, ih, goalsWeight, Nat.add_assoc]

theorem Goal.weight_pos (goal : Goal) : 0 < goal.weight := by
  cases goal with
  | flowItems first | flowKey first => cases first <;> decide
  | _ => exact Nat.succ_pos _

theorem Goal.weightAt_le (next : Option TokenKind) (goal : Goal) :
    goal.weightAt next ≤ goal.weight := by
  unfold weightAt
  split
  · exact goal.weight_pos
  · exact Nat.le_refl _

theorem Goal.weightAt_pos (next : Option TokenKind) (goal : Goal) : 0 < goal.weightAt next := by
  unfold weightAt
  split
  · decide
  · exact goal.weight_pos

theorem goalsWeightAt_le (next : Option TokenKind) (goals : List Goal) :
    goalsWeightAt next goals ≤ goalsWeight goals := by
  cases goals with
  | nil => exact Nat.le_refl _
  | cons goal goals =>
    rw [goalsWeightAt_cons, goalsWeight]
    exact Nat.add_le_add_right (goal.weightAt_le next) _

/-- Under new goals the old ones weigh what they always weigh. -/
theorem goalsWeightAt_append (next : Option TokenKind) (new old : List Goal) :
    goalsWeightAt next (new ++ old) ≤ goalsWeightAt next new + goalsWeight old := by
  cases new with
  | nil =>
    rw [List.nil_append, goalsWeightAt_nil, Nat.zero_add]
    exact goalsWeightAt_le next old
  | cons goal goals =>
    refine Nat.le_of_eq ?_
    rw [List.cons_append, goalsWeightAt_cons, goalsWeightAt_cons, goalsWeight_append,
      Nat.add_assoc]

/-- A single pair begins only in front of the token of its key, and nothing is under way below. -/
def AtKey (next : Option TokenKind) : List Goal → Prop
  | [] => True
  | goal :: goals => (goal = .pairKey → next = some .key) ∧ .pairKey ∉ goals

theorem AtKey.of_not_mem {next : Option TokenKind} {goals : List Goal} (h : .pairKey ∉ goals) :
    AtKey next goals := by
  cases goals with
  | nil => trivial
  | cons goal goals =>
    refine ⟨?_, fun hmem => h (List.mem_cons_of_mem _ hmem)⟩
    rintro rfl
    exact absurd List.mem_cons_self h

theorem AtKey.append {next : Option TokenKind} {new old : List Goal} (hnew : AtKey next new)
    (hold : .pairKey ∉ old) : AtKey next (new ++ old) := by
  cases new with
  | nil => exact .of_not_mem hold
  | cons goal goals =>
    refine ⟨hnew.1, fun hmem => ?_⟩
    rcases List.mem_append.mp hmem with h | h
    · exact hnew.2 h
    · exact hold h

namespace Reader

def next? (r : Reader) : Option TokenKind := r.tokens.head?.map (·.token.kind)

/-- A bound on the steps that goals take. -/
def cost (r : Reader) (goals : List Goal) : Nat :=
  8 * r.tokens.length + goalsWeightAt r.next? goals

/-- A reader of tokens that the text may have. -/
def Sound (text : List Char) (r : Reader) : Prop := TokenRun.IsOf text ⟨r.tokens, r.halt⟩

/-- What a step does to meet a goal: the goals that it leaves lead, behind its event, to what the
goal leads to, and they cost less. -/
structure Leaves (text : List Char) (goal : Goal) (r : Reader) (event : Option Event)
    (r' : Reader) (new : List Goal) : Prop where
  sound : r'.Sound text
  goals : r'.goals = new ++ r.goals
  yields : ∀ es, Yields new es → goal.Yields (event.toList ++ es)
  cost : r'.cost new < r.cost [goal]
  atKey : AtKey r'.next? new

/-- A step stops for a reason in the text, or meets the goal. -/
def Meets (text : List Char) (goal : Goal) (r : Reader) : Step → Prop :=
  Reads text fun out => ∃ new, Leaves text goal r out.1 out.2 new

section
variable {text : List Char} {r r' : Reader}

/-- A step that takes a token may leave goals of weight eight. -/
theorem cost_of_taken {goal : Goal} {new : List Goal} (h : r'.tokens.length < r.tokens.length)
    (hnew : goalsWeight new ≤ 8) : r'.cost new < r.cost [goal] := by
  have hle := goalsWeightAt_le r'.next? new
  have hpos := goal.weightAt_pos r.next?
  rw [Reader.cost, Reader.cost, goalsWeightAt_cons]
  omega

/-- A step that takes none leaves lighter goals. -/
theorem cost_of_lighter {goal : Goal} {new : List Goal} (h : r'.tokens.length ≤ r.tokens.length)
    (hgoal : goal ≠ .blockValue) (hnew : goalsWeight new < goal.weight) :
    r'.cost new < r.cost [goal] := by
  have hle := goalsWeightAt_le r'.next? new
  have hat : goal.weightAt r.next? = goal.weight := if_neg fun hvalue => hgoal hvalue.1
  rw [Reader.cost, Reader.cost, goalsWeightAt_cons, hat]
  omega

/-- A step that finishes what the goal leads to with its event. -/
theorem Leaves.last {goal : Goal} {event : Event} (hsound : r'.Sound text)
    (hgoals : r'.goals = r.goals) (hyields : goal.Yields [event])
    (hcost : r'.cost [] < r.cost [goal]) : Leaves text goal r (some event) r' [] := by
  refine ⟨hsound, hgoals, ?_, hcost, trivial⟩
  rintro _ rfl
  exact hyields

end

end Reader

/-! ### looking at tokens -/

section
variable {text : List Char} {halt : Option Halt}

/-- Behind any token but the last one the end of the text is still to come. -/
theorem TokenRun.IsOf.tail {t : ReadyToken} {rest : List ReadyToken}
    (h : TokenRun.IsOf text ⟨t :: rest, halt⟩) (hkind : t.token.kind ≠ .streamEnd) :
    TokenRun.IsOf text ⟨rest, halt⟩ := by
  refine ⟨fun t' ht' => h.tokens t' (List.mem_cons_of_mem _ ht'), h.halt, fun hnone => ?_⟩
  obtain ⟨t', ht', hstop⟩ := h.stop hnone
  rcases List.mem_cons.mp ht' with rfl | ht'
  · exact absurd hstop hkind
  · exact ⟨t', ht', hstop⟩

/-- Tokens run out only where something stopped them. -/
theorem TokenRun.IsOf.exhausted (h : TokenRun.IsOf text ⟨[], halt⟩) :
    (halt.getD (.fault .nothingOpen)).IsOf text := by
  cases halt with
  | none =>
    obtain ⟨t, ht, -⟩ := h.stop rfl
    cases ht
  | some halt => exact h.halt halt rfl

theorem refuse_reads {α : Type} (P : α → Prop) (t : Token) (p : String → Problem) :
    Reads text P (t.refuse p) :=
  Problem.halt_isOf text _ _

end

namespace Reader

section
variable {text : List Char} {r r1 : Reader} {t : Token} {version : Version}
  {rest : List ReadyToken}

theorem Sound.peekReady (h : r.Sound text) :
    Reads text (fun t => ∃ rest, r.tokens = t :: rest) r.peekReady := by
  unfold Reader.peekReady
  cases htokens : r.tokens with
  | nil =>
    unfold Sound at h
    rw [htokens] at h
    exact h.exhausted
  | cons t rest => exact ⟨rest, rfl⟩

theorem Sound.peek (h : r.Sound text) :
    Reads text (fun t => ∃ version rest, r.tokens = ⟨t, version⟩ :: rest) r.peek :=
  (h.peekReady.map _).mono fun _ ⟨t, ⟨rest, hrest⟩, ht⟩ => ⟨t.version, rest, ht ▸ hrest⟩

theorem Sound.kind (h : r.Sound text) (htokens : r.tokens = ⟨t, version⟩ :: rest) :
    t.kind.IsOf text := by
  unfold Sound at h
  rw [htokens] at h
  exact h.tokens _ List.mem_cons_self

theorem next?_iff (htokens : r.tokens = ⟨t, version⟩ :: rest) {kind : TokenKind} :
    r.next? = some kind ↔ t.kind = kind := by
  rw [next?, htokens, List.head?_cons, Option.map_some, Option.some.injEq]

theorem Sound.skip (h : r.Sound text) (htokens : r.tokens = ⟨t, version⟩ :: rest)
    {kind : TokenKind} (hkind : t.kind = kind) (hne : kind ≠ .streamEnd) : r.skip.Sound text := by
  unfold Sound at h ⊢
  rw [htokens] at h
  rw [Reader.skip, htokens]
  exact h.tail (hkind ▸ hne)

theorem skip_length (htokens : r.tokens = ⟨t, version⟩ :: rest) :
    r.skip.tokens.length < r.tokens.length := by
  rw [Reader.skip, htokens]
  exact Nat.lt_succ_self _

/-- A node and a further goal behind it, after a token was taken. -/
theorem nodeUnless_meets (r : Reader) (goal next : Goal) (h : r1.Sound text)
    (hgoals : r1.goals = r.goals) (hlength : r1.tokens.length < r.tokens.length)
    (hyields : ∀ node es, IsNode node → next.Yields es → goal.Yields (node ++ es))
    (hweight : next.weight ≤ 4) (hkey : next ≠ .pairKey) (isFollower : TokenKind → Bool)
    (block indentless : Bool) (place : Token → Mark) :
    Meets text goal r (r1.nodeUnless isFollower (.node block indentless) [next] place) := by
  have hmem : .pairKey ∉ [next] := fun hmem => hkey (List.mem_singleton.mp hmem).symm
  unfold nodeUnless
  refine Reads.bind h.peek fun t _ =>
    .ite (fun _ => ⟨[next], ?_⟩) fun _ => ⟨[.node block indentless, next], ?_⟩
  · refine ⟨h, congrArg ([next] ++ ·) hgoals, fun es hes => ?_, cost_of_taken hlength ?_,
      .of_not_mem hmem⟩
    · exact hyields _ es (isNode_leftOut _) (yields_single.mp hes)
    · show next.weight + 0 ≤ 8
      omega
  · refine ⟨h, congrArg ([.node block indentless, next] ++ ·) hgoals, ?_, cost_of_taken hlength ?_,
      nofun, hmem⟩
    · rintro _ ⟨node, es, rfl, hnode, hes⟩
      exact hyields node es hnode (yields_single.mp hes)
    · show 4 + (next.weight + 0) ≤ 8
      omega

end

/-! ### documents -/

section
variable {text : List Char} {r : Reader}

theorem anyDocument_meets (h : r.Sound text) : Meets text .anyDocument r r.anyDocument := by
  unfold anyDocument
  refine Reads.bind h.peek ?_
  rintro t -
  have hexplicit : Leaves text .anyDocument r none (r.push [.explicitDocument])
      [.explicitDocument] :=
    ⟨h, rfl, fun es hes => yields_single.mp hes, cost_of_lighter (Nat.le_refl _) nofun (by decide),
      .of_not_mem (by decide)⟩
  have hnode : Leaves text .anyDocument r (some (.documentStart (t.start.to t.start)))
      ({ r with handles := .standard }.push [.node true false, .documentEnd])
      [.node true false, .documentEnd] := by
    refine ⟨h, rfl, ?_, cost_of_lighter (Nat.le_refl _) nofun (by decide), .of_not_mem (by decide)⟩
    rintro _ ⟨root, back, rfl, hroot, hback⟩
    obtain ⟨stop, rest, rfl, hrest⟩ := yields_single.mp hback
    exact hroot.document hrest _ stop
  split
  · exact ⟨_, hexplicit⟩
  · exact ⟨_, hexplicit⟩
  · exact ⟨_, hexplicit⟩
  · exact ⟨_, hnode⟩

theorem skipDocumentEnds_isOf {halt : Option Halt} {tokens : List ReadyToken}
    (h : TokenRun.IsOf text ⟨tokens, halt⟩) :
    TokenRun.IsOf text ⟨skipDocumentEnds tokens, halt⟩
      ∧ (skipDocumentEnds tokens).length ≤ tokens.length := by
  induction tokens with
  | nil => exact ⟨h, Nat.le_refl _⟩
  | cons t rest ih =>
    rw [skipDocumentEnds]
    split
    · rename_i hkind
      obtain ⟨hrest, hle⟩ := ih (h.tail (by rw [hkind]; nofun))
      exact ⟨hrest, Nat.le_succ_of_le hle⟩
    · exact ⟨h, Nat.le_refl _⟩

theorem Prologue.add_reads (p : Prologue) (t : Token) (d : Directive) :
    Reads text (fun _ => True) (p.add t d) := by
  cases d with
  | version v =>
    refine .ite (fun _ => Problem.halt_isOf text _ _) fun _ => ?_
    exact .ite (fun _ => Problem.halt_isOf text _ _) fun _ => trivial
  | handle handle expansion =>
    exact .ite (fun _ => Problem.halt_isOf text _ _) fun _ => trivial
  | other => trivial

/-- Directives take a percent sign, so a version that was asked for does. -/
theorem readDirectives_reads {halt : Option Halt} {tokens : List ReadyToken}
    (h : TokenRun.IsOf text ⟨tokens, halt⟩) (p : Prologue)
    (hp : p.version.isSome → '%' ∈ text) :
    Reads text (fun out => TokenRun.IsOf text ⟨out.2, halt⟩ ∧ out.2.length ≤ tokens.length
        ∧ (out.1.version.isSome → '%' ∈ text))
      (readDirectives (halt.getD (.fault .nothingOpen)) p tokens) := by
  induction tokens generalizing p with
  | nil => exact h.exhausted
  | cons t rest ih =>
    have hkind := h.tokens t List.mem_cons_self
    rw [readDirectives]
    split
    · rename_i d hd
      have hpercent : '%' ∈ text := by
        rw [hd] at hkind
        exact hkind
      refine Reads.bind (p.add_reads t.token d) fun p1 _ => ?_
      refine (ih (h.tail (by rw [hd]; nofun)) p1 fun _ => hpercent).mono ?_
      rintro out ⟨hrest, hle, hversion⟩
      exact ⟨hrest, Nat.le_succ_of_le hle, hversion⟩
    · exact ⟨h, Nat.le_refl _, hp⟩

theorem Prologue.check_reads (p : Prologue) (hp : p.version.isSome → '%' ∈ text) :
    Reads text (fun _ => True) p.check := by
  unfold Prologue.check
  split
  · rename_i hversion
    rw [hversion] at hp
    exact .ite (fun _ => trivial) fun _ => ⟨'%', List.mem_singleton.mpr rfl, hp rfl⟩
  · trivial

theorem explicitDocument_meets (h : r.Sound text) :
    Meets text .explicitDocument r r.explicitDocument := by
  obtain ⟨hends, hle⟩ := skipDocumentEnds_isOf h
  let r1 : Reader := { r with tokens := skipDocumentEnds r.tokens }
  have h1 : r1.Sound text := hends
  unfold explicitDocument
  refine Reads.bind h1.peek fun t _ => .ite (fun _ => ⟨[], ?_⟩) fun _ => ?_
  · refine ⟨h1, rfl, ?_, cost_of_lighter hle nofun (by decide), trivial⟩
    rintro _ rfl
    exact areDocuments_nil
  refine Reads.bind (readDirectives_reads hends ⟨none, []⟩ nofun) ?_
  rintro ⟨p, tokens⟩ ⟨h2, hle2, hversion⟩
  refine Reads.bind (p.check_reads hversion) fun _ _ => ?_
  let r2 : Reader := { r with tokens := tokens, handles := p.handles ++ Handles.standard }
  have h2 : r2.Sound text := h2
  refine Reads.bind h2.peek ?_
  rintro t ⟨version, rest, htokens⟩
  refine .ite (fun hkind => ⟨[.documentContent, .documentEnd], ?_⟩) fun _ => refuse_reads _ _ _
  have hlength : r2.skip.tokens.length < r.tokens.length :=
    Nat.lt_of_lt_of_le (skip_length htokens) (Nat.le_trans hle2 hle)
  refine ⟨h2.skip htokens hkind nofun, rfl, ?_, cost_of_taken hlength (by decide),
    .of_not_mem (by decide)⟩
  rintro _ ⟨root, back, rfl, hroot, hback⟩
  obtain ⟨stop, rest, rfl, hrest⟩ := yields_single.mp hback
  exact hroot.document hrest _ stop

theorem documentContent_meets (h : r.Sound text) :
    Meets text .documentContent r r.documentContent := by
  unfold documentContent
  refine Reads.bind h.peek ?_
  rintro t -
  have hout : Leaves text .documentContent r (some (leftOut t.start)) r [] :=
    .last h rfl (isNode_leftOut _) (cost_of_lighter (Nat.le_refl _) nofun (by decide))
  have hnode : Leaves text .documentContent r none (r.push [.node true false])
      [.node true false] :=
    ⟨h, rfl, fun es hes => yields_single.mp hes, cost_of_lighter (Nat.le_refl _) nofun (by decide),
      .of_not_mem (by decide)⟩
  split
  · exact ⟨_, hout⟩
  · exact ⟨_, hout⟩
  · exact ⟨_, hout⟩
  · exact ⟨_, hout⟩
  · exact ⟨_, hnode⟩

theorem documentEnd_meets (h : r.Sound text) : Meets text .documentEnd r r.documentEnd := by
  have hyields : ∀ (span : Span) (goal : Goal), goal = .anyDocument ∨ goal = .explicitDocument →
      ∀ es, Yields [goal] es → Goal.Yields .documentEnd (.documentEnd span :: es) := by
    rintro span _ (rfl | rfl) es hes
    · exact ⟨span, es, rfl, yields_single.mp hes⟩
    · exact ⟨span, es, rfl, yields_single.mp hes⟩
  unfold documentEnd
  refine Reads.bind h.peek ?_
  rintro t ⟨version, rest, htokens⟩
  refine .ite (fun hkind => ?_) fun _ => ⟨[.explicitDocument], ?_⟩
  · have h1 := h.skip htokens hkind nofun
    refine Reads.bind h1.peekReady fun next _ => .ite (fun _ => refuse_reads _ _ _) fun _ => ?_
    have hlength := skip_length htokens
    simp only
    split
    · exact ⟨[.explicitDocument], h1, rfl, hyields _ _ (.inr rfl),
        cost_of_taken hlength (by decide), .of_not_mem (by decide)⟩
    · exact ⟨[.anyDocument], h1, rfl, hyields _ _ (.inl rfl), cost_of_taken hlength (by decide),
        .of_not_mem (by decide)⟩
  · exact ⟨h, rfl, hyields _ _ (.inr rfl), cost_of_lighter (Nat.le_refl _) nofun (by decide),
      .of_not_mem (by decide)⟩

/-! ### nodes -/

theorem decodeEscape_reads (digits : List Char) (h : '%' ∈ text) :
    Reads text (fun _ => True) (decodeEscape digits) := by
  unfold decodeEscape
  split
  · exact .ite (fun _ => ⟨'%', by decide, h⟩) fun _ => trivial
  · exact ⟨'%', List.mem_singleton.mpr rfl, h⟩

theorem decodeSuffix_reads (suffix : List Char) (h : '%' ∈ suffix → '%' ∈ text) :
    Reads text (fun _ => True) (decodeSuffix suffix) := by
  fun_induction decodeSuffix suffix with
  | case1 a b rest ih =>
    refine Reads.bind (decodeEscape_reads _ (h List.mem_cons_self)) fun _ _ => ?_
    refine Reads.bind (ih fun hmem => h ?_) fun _ _ => trivial
    exact List.mem_cons_of_mem _ (List.mem_cons_of_mem _ (List.mem_cons_of_mem _ hmem))
  | case2 a => exact Reads.bind (decodeEscape_reads _ (h List.mem_cons_self)) fun _ _ => trivial
  | case3 => exact Reads.bind (decodeEscape_reads _ (h List.mem_cons_self)) fun _ _ => trivial
  | case4 c rest _ ih =>
    exact Reads.bind (ih fun hmem => h (List.mem_cons_of_mem _ hmem)) fun _ _ => trivial
  | case5 => trivial

theorem resolveTag_reads (r : Reader) (mark : Mark) (handle : Option String) {suffix : String}
    (h : '%' ∈ suffix.toList → '%' ∈ text) :
    Reads text (fun _ => True) (r.resolveTag mark handle suffix) := by
  unfold resolveTag
  split
  · exact Reads.bind (decodeSuffix_reads _ h) fun _ _ => trivial
  · split
    · exact Problem.halt_isOf text _ _
    · exact Reads.bind (decodeSuffix_reads _ h) fun _ _ => trivial

/-- Properties take a token each. -/
structure ReadsProperties (text : List Char) (r : Reader) (p : Properties) (r' : Reader) :
    Prop where
  sound : r'.Sound text
  goals : r'.goals = r.goals
  length : r'.tokens.length ≤ r.tokens.length
  taken : p.place.isSome → r'.tokens.length < r.tokens.length

theorem readProperties_reads (h : r.Sound text) :
    Reads text (fun out => ReadsProperties text r out.1 out.2) r.readProperties := by
  unfold readProperties
  refine Reads.bind h.peek ?_
  rintro t ⟨version, rest, htokens⟩
  have hlength := skip_length htokens
  split
  · rename_i name hkind
    have h1 := h.skip htokens hkind nofun
    refine Reads.bind h1.peek ?_
    rintro next ⟨version1, rest1, htokens1⟩
    split
    · rename_i handle suffix hkind1
      have hsuffix := h1.kind htokens1
      rw [hkind1] at hsuffix
      refine Reads.bind (resolveTag_reads _ _ handle hsuffix) fun tag _ => ?_
      have hlength1 := Nat.lt_trans (skip_length htokens1) hlength
      exact ⟨h1.skip htokens1 hkind1 nofun, rfl, Nat.le_of_lt hlength1, fun _ => hlength1⟩
    · exact ⟨h1, rfl, Nat.le_of_lt hlength, fun _ => hlength⟩
  · rename_i handle suffix hkind
    have hsuffix := h.kind htokens
    rw [hkind] at hsuffix
    have h1 := h.skip htokens hkind nofun
    refine Reads.bind h1.peek ?_
    rintro next ⟨version1, rest1, htokens1⟩
    split
    · rename_i name hkind1
      refine Reads.bind (resolveTag_reads _ _ handle hsuffix) fun tag _ => ?_
      have hlength1 := Nat.lt_trans (skip_length htokens1) hlength
      exact ⟨h1.skip htokens1 hkind1 nofun, rfl, Nat.le_of_lt hlength1, fun _ => hlength1⟩
    · refine Reads.bind (resolveTag_reads _ _ handle hsuffix) fun tag _ => ?_
      exact ⟨h1, rfl, Nat.le_of_lt hlength, fun _ => hlength⟩
  · exact ⟨h, rfl, Nat.le_refl _, nofun⟩

theorem readContent_meets {r1 : Reader} {p : Properties} (h : ReadsProperties text r p r1)
    (block indentless : Bool) (b i : Bool) :
    Meets text (.node b i) r (r1.readContent block indentless p) := by
  have hsequence : ∀ (start : Span) (anchor tag : Option String) (goal : Goal),
      goal.Yields = AreItems → ∀ es, Yields [goal] es →
        Goal.Yields (.node b i) (.sequenceStart start anchor tag :: es) := by
    intro start anchor tag goal hgoal es hes
    rw [yields_single, hgoal] at hes
    exact hes.node start anchor tag
  have hmapping : ∀ (start : Span) (anchor tag : Option String) (goal : Goal),
      goal.Yields = ArePairs → ∀ es, Yields [goal] es →
        Goal.Yields (.node b i) (.mappingStart start anchor tag :: es) := by
    intro start anchor tag goal hgoal es hes
    rw [yields_single, hgoal] at hes
    exact hes.node start anchor tag
  unfold readContent
  refine Reads.bind h.sound.peek ?_
  rintro t ⟨version, rest, htokens⟩
  have hlength : r1.skip.tokens.length < r.tokens.length :=
    Nat.lt_of_lt_of_le (skip_length htokens) h.length
  simp only
  split
  · rename_i hkind
    exact ⟨[], .last (h.sound.skip htokens hkind nofun) h.goals ⟨.scalar .., rfl⟩
      (cost_of_taken hlength (by decide))⟩
  · rename_i hkind
    exact ⟨[.flowItems true], h.sound.skip htokens hkind nofun, congrArg ([_] ++ ·) h.goals,
      hsequence _ _ _ _ rfl, cost_of_taken hlength (by decide), .of_not_mem (by decide)⟩
  · rename_i hkind
    exact ⟨[.flowKey true], h.sound.skip htokens hkind nofun, congrArg ([_] ++ ·) h.goals,
      hmapping _ _ _ _ rfl, cost_of_taken hlength (by decide), .of_not_mem (by decide)⟩
  · refine .ite (fun _ => ?_) fun _ => .ite (fun hkind => ?_) fun _ => .ite (fun hkind => ?_)
      fun _ => .ite (fun hplace => ?_) fun _ => refuse_reads _ _ _
    · exact ⟨[.indentlessItems], h.sound, congrArg ([_] ++ ·) h.goals, hsequence _ _ _ _ rfl,
        cost_of_lighter h.length nofun (show 1 < 4 by decide), .of_not_mem (by decide)⟩
    · rw [Bool.and_eq_true, decide_eq_true_eq] at hkind
      exact ⟨[.blockItems], h.sound.skip htokens hkind.2 nofun, congrArg ([_] ++ ·) h.goals,
        hsequence _ _ _ _ rfl, cost_of_taken hlength (by decide), .of_not_mem (by decide)⟩
    · rw [Bool.and_eq_true, decide_eq_true_eq] at hkind
      exact ⟨[.blockKey], h.sound.skip htokens hkind.2 nofun, congrArg ([_] ++ ·) h.goals,
        hmapping _ _ _ _ rfl, cost_of_taken hlength (by decide), .of_not_mem (by decide)⟩
    · exact ⟨[], .last h.sound h.goals ⟨.scalar .., rfl⟩
        (cost_of_taken (h.taken hplace) (by decide))⟩

theorem readNode_meets (h : r.Sound text) (block indentless : Bool) :
    Meets text (.node block indentless) r (r.readNode block indentless) := by
  unfold readNode
  refine Reads.bind h.peek ?_
  rintro t ⟨version, rest, htokens⟩
  split
  · rename_i hkind
    exact ⟨[], .last (h.skip htokens hkind nofun) rfl ⟨.reference .., rfl⟩
      (cost_of_taken (skip_length htokens) (by decide))⟩
  · refine Reads.bind (readProperties_reads h) ?_
    rintro ⟨p, r1⟩ hp
    exact readContent_meets hp block indentless block indentless

/-! ### block collections -/

theorem blockItems_meets (h : r.Sound text) : Meets text .blockItems r r.blockItems := by
  unfold blockItems
  refine Reads.bind h.peek ?_
  rintro t ⟨version, rest, htokens⟩
  refine .ite (fun hkind => ?_) fun _ => .ite (fun hkind => ?_) fun _ => refuse_reads _ _ _
  · exact nodeUnless_meets r .blockItems .blockItems (h.skip htokens hkind nofun) rfl
      (skip_length htokens) (fun _ _ => IsNode.item) (by decide) nofun _ _ _ _
  · exact ⟨[], .last (h.skip htokens hkind nofun) rfl (areItems_nil _)
      (cost_of_taken (skip_length htokens) (by decide))⟩

theorem indentlessItems_meets (h : r.Sound text) :
    Meets text .indentlessItems r r.indentlessItems := by
  unfold indentlessItems
  refine Reads.bind h.peek ?_
  rintro t ⟨version, rest, htokens⟩
  refine .ite (fun hkind => ?_) fun _ => ?_
  · exact nodeUnless_meets r .indentlessItems .indentlessItems (h.skip htokens hkind nofun) rfl
      (skip_length htokens) (fun _ _ => IsNode.item) (by decide) nofun _ _ _ _
  · exact ⟨[], .last h rfl (areItems_nil _) (cost_of_lighter (Nat.le_refl _) nofun (by decide))⟩

theorem blockKey_meets (h : r.Sound text) : Meets text .blockKey r r.blockKey := by
  unfold blockKey
  refine Reads.bind h.peekReady ?_
  rintro ⟨t, version⟩ ⟨rest, htokens⟩
  refine .ite (fun hkind => ?_) fun _ => .ite (fun hkind => ?_) fun _ => .ite (fun hkind => ?_)
    fun _ => refuse_reads _ _ _
  · exact nodeUnless_meets r .blockKey .blockValue (h.skip htokens hkind nofun) rfl
      (skip_length htokens) (fun _ _ => IsNode.key) (by decide) nofun _ _ _ _
  · -- the colon stays for the goal of the value, which weighs less in front of it
    rw [Bool.and_eq_true, decide_eq_true_eq] at hkind
    have hnext : r.next? = some .value := (next?_iff htokens).mpr hkind.2
    refine ⟨[.blockValue], h, rfl, fun es hes => ?_, ?_, .of_not_mem (by decide)⟩
    · exact (isNode_leftOut _).key (yields_single.mp hes)
    · show r.cost [.blockValue] < r.cost [.blockKey]
      rw [cost, cost, hnext]
      exact Nat.add_lt_add_left (by decide) _
  · exact ⟨[], .last (h.skip htokens hkind nofun) rfl (arePairs_nil _)
      (cost_of_taken (skip_length htokens) (by decide))⟩

theorem blockValue_meets (h : r.Sound text) : Meets text .blockValue r r.blockValue := by
  unfold blockValue
  refine Reads.bind h.peek ?_
  rintro t ⟨version, rest, htokens⟩
  refine .ite (fun hkind => ?_) fun hkind => ⟨[.blockKey], ?_⟩
  · exact nodeUnless_meets r .blockValue .blockKey (h.skip htokens hkind nofun) rfl
      (skip_length htokens) (fun node es hnode hes => ⟨node, es, rfl, hnode, hes⟩) (by decide)
      nofun _ _ _ _
  · refine ⟨h, rfl, fun es hes => ⟨_, es, rfl, isNode_leftOut _, yields_single.mp hes⟩, ?_,
      .of_not_mem (by decide)⟩
    have hat : Goal.blockValue.weightAt r.next? = 3 := by
      refine if_neg ?_
      rintro ⟨-, hvalue⟩
      exact hkind ((next?_iff htokens).mp hvalue)
    have hle : goalsWeightAt r.next? [.blockKey] ≤ 2 := goalsWeightAt_le r.next? [.blockKey]
    show r.cost [.blockKey] < r.cost [.blockValue]
    rw [cost, cost, goalsWeightAt_cons r.next? .blockValue, hat]
    omega

/-! ### flow collections -/

/-- The comma in front of an entry is taken, unless there is none in front of the first or of the
end. -/
theorem skipComma_reads (h : r.Sound text) (first : Bool) (closing : TokenKind)
    (p : String → Problem) :
    Reads text (fun r' => r'.Sound text ∧ r'.goals = r.goals
        ∧ r'.tokens.length ≤ r.tokens.length
        ∧ (r'.tokens.length < r.tokens.length
          ∨ r' = r ∧ (first = true ∨ r.next? = some closing)))
      (r.skipComma first closing p) := by
  unfold skipComma
  refine Reads.bind h.peek ?_
  rintro t ⟨version, rest, htokens⟩
  refine .ite (fun hstay => ?_) fun _ => .ite (fun hkind => ?_) fun _ => refuse_reads _ _ _
  · refine ⟨h, rfl, Nat.le_refl _, .inr ⟨rfl, ?_⟩⟩
    rw [Bool.or_eq_true, decide_eq_true_eq] at hstay
    exact hstay.imp_right (next?_iff htokens).mpr
  · have hlength := skip_length htokens
    exact ⟨h.skip htokens hkind nofun, rfl, Nat.le_of_lt hlength, .inl hlength⟩

/-- What an entry leaves costs less: a token was taken, or it is the first. -/
theorem cost_of_entry (goal : Bool → Goal) {r' : Reader} {first : Bool} {closing : TokenKind}
    {t : Token} {version : Version} {rest : List ReadyToken}
    (htokens : r'.tokens = ⟨t, version⟩ :: rest) (hkind : ¬ t.kind = closing)
    (hentry : r'.tokens.length < r.tokens.length
      ∨ r' = r ∧ (first = true ∨ r.next? = some closing))
    (hgoal : goal true ≠ .blockValue) (hfirst : (goal true).weight ≤ 8) {new : List Goal}
    (hnew : goalsWeight new < (goal true).weight) : r'.cost new < r.cost [goal first] := by
  rcases hentry with htaken | ⟨rfl, rfl | hnext⟩
  · exact cost_of_taken htaken (by omega)
  · exact cost_of_lighter (Nat.le_refl _) hgoal hnew
  · exact absurd ((next?_iff htokens).mp hnext) hkind

theorem flowItems_meets (h : r.Sound text) (first : Bool) :
    Meets text (.flowItems first) r (r.flowItems first) := by
  unfold flowItems
  refine Reads.bind (skipComma_reads h first _ _) ?_
  rintro r1 ⟨h1, hgoals, hle, hentry⟩
  refine Reads.bind h1.peek ?_
  rintro t ⟨version, rest, htokens⟩
  refine .ite (fun hkind => ?_) fun hopen => ?_
  · exact ⟨[], .last (h1.skip htokens hkind nofun) hgoals (areItems_nil _)
      (cost_of_taken (Nat.lt_of_lt_of_le (skip_length htokens) hle) (by decide))⟩
  have hcost : ∀ new, goalsWeight new < 6 → r1.cost new < r.cost [.flowItems first] := fun new =>
    cost_of_entry .flowItems htokens hopen hentry nofun (by decide)
  refine .ite (fun hkind => ?_) fun _ => ?_
  · have hnext : r1.next? = some .key := (next?_iff htokens).mpr hkind
    refine ⟨[.pairKey, .flowItems false], h1, congrArg ([_, _] ++ ·) hgoals, ?_,
      hcost _ (by decide), fun _ => hnext, by decide⟩
    rintro _ ⟨pair, es, rfl, ⟨key, value, stop, rfl, hkey, hvalue⟩, hes⟩
    have hnode := (hkey.pair hvalue (arePairs_nil stop)).node t.span none none
    exact hnode.item (yields_single.mp hes)
  · refine ⟨[.node false false, .flowItems false], h1, congrArg ([_, _] ++ ·) hgoals, ?_,
      hcost _ (by decide), .of_not_mem (by decide)⟩
    rintro _ ⟨node, es, rfl, hnode, hes⟩
    show AreItems (node ++ es)
    exact IsNode.item hnode (yields_single.mp hes)

theorem pairKey_meets (h : r.Sound text) (hkey : r.next? = some .key) :
    Meets text .pairKey r r.pairKey := by
  unfold pairKey
  refine Reads.bind h.peek ?_
  rintro t ⟨version, rest, htokens⟩
  have hkind : t.kind = .key := (next?_iff htokens).mp hkey
  refine nodeUnless_meets r .pairKey .pairValue (h.skip htokens hkind nofun) rfl
    (skip_length htokens) ?_ (by decide) nofun _ _ _ _
  rintro node _ hnode ⟨value, stop, rfl, hvalue⟩
  exact ⟨node, value, stop, rfl, hnode, hvalue⟩

theorem pairValue_meets (h : r.Sound text) : Meets text .pairValue r r.pairValue := by
  have hyields : ∀ node es, IsNode node → Goal.Yields .pairEnd es →
      Goal.Yields .pairValue (node ++ es) := by
    rintro node _ hnode ⟨stop, rfl⟩
    exact ⟨node, stop, rfl, hnode⟩
  unfold pairValue
  refine Reads.bind h.peek ?_
  rintro t ⟨version, rest, htokens⟩
  refine .ite (fun hkind => ?_) fun _ => ⟨[.pairEnd], ?_⟩
  · exact nodeUnless_meets r .pairValue .pairEnd (h.skip htokens hkind nofun) rfl
      (skip_length htokens) hyields (by decide) nofun _ _ _ _
  · exact ⟨h, rfl, fun es hes => hyields _ es (isNode_leftOut _) (yields_single.mp hes),
      cost_of_lighter (Nat.le_refl _) nofun (by decide), .of_not_mem (by decide)⟩

theorem pairEnd_meets (h : r.Sound text) : Meets text .pairEnd r r.pairEnd := by
  unfold pairEnd
  refine Reads.bind h.peek fun t _ => ⟨[], .last h rfl ⟨_, rfl⟩ ?_⟩
  exact cost_of_lighter (Nat.le_refl _) nofun (by decide)

theorem flowKey_meets (h : r.Sound text) (first : Bool) :
    Meets text (.flowKey first) r (r.flowKey first) := by
  unfold flowKey
  refine Reads.bind (skipComma_reads h first _ _) ?_
  rintro r1 ⟨h1, hgoals, hle, hentry⟩
  refine Reads.bind h1.peekReady ?_
  rintro ⟨t, version⟩ ⟨rest, htokens⟩
  have hlength := Nat.lt_of_lt_of_le (skip_length htokens) hle
  refine .ite (fun hkind => ?_) fun hopen => .ite (fun hkind => ?_) fun _ => ?_
  · exact ⟨[], .last (h1.skip htokens hkind nofun) hgoals (arePairs_nil _)
      (cost_of_taken hlength (by decide))⟩
  · exact nodeUnless_meets r (.flowKey first) .flowValue (h1.skip htokens hkind nofun) hgoals
      hlength (fun _ _ => IsNode.key) (by decide) nofun _ _ _ _
  have hcost : ∀ new, goalsWeight new < 7 → r1.cost new < r.cost [.flowKey first] := fun new =>
    cost_of_entry .flowKey htokens hopen hentry nofun (by decide)
  refine .ite (fun _ => ?_) fun _ => ?_
  · refine ⟨[.flowValue], h1, congrArg ([_] ++ ·) hgoals, fun es hes => ?_, hcost _ (by decide),
      .of_not_mem (by decide)⟩
    exact (isNode_leftOut _).key (yields_single.mp hes)
  · refine ⟨[.node false false, .flowNoValue], h1, congrArg ([_, _] ++ ·) hgoals, ?_,
      hcost _ (by decide), .of_not_mem (by decide)⟩
    rintro _ ⟨node, es, rfl, hnode, hes⟩
    show ArePairs (node ++ es)
    exact IsNode.key hnode (yields_single.mp hes)

theorem flowValue_meets (h : r.Sound text) : Meets text .flowValue r r.flowValue := by
  unfold flowValue
  refine Reads.bind h.peek ?_
  rintro t ⟨version, rest, htokens⟩
  refine .ite (fun hkind => ?_) fun _ => ⟨[.flowKey false], ?_⟩
  · exact nodeUnless_meets r .flowValue (.flowKey false) (h.skip htokens hkind nofun) rfl
      (skip_length htokens) (fun node es hnode hes => ⟨node, es, rfl, hnode, hes⟩) (by decide)
      nofun _ _ _ _
  · exact ⟨h, rfl, fun es hes => ⟨_, es, rfl, isNode_leftOut _, yields_single.mp hes⟩,
      cost_of_lighter (Nat.le_refl _) nofun (by decide), .of_not_mem (by decide)⟩

theorem flowNoValue_meets (h : r.Sound text) : Meets text .flowNoValue r r.flowNoValue := by
  unfold flowNoValue
  refine Reads.bind h.peek fun t _ => ⟨[.flowKey false], ?_⟩
  exact ⟨h, rfl, fun es hes => ⟨_, es, rfl, isNode_leftOut _, yields_single.mp hes⟩,
    cost_of_lighter (Nat.le_refl _) nofun (by decide), .of_not_mem (by decide)⟩

/-! ### all goals -/

/-- One step meets its goal, whichever it is. -/
theorem meet_meets (h : r.Sound text) (goal : Goal) (hkey : goal = .pairKey → r.next? = some .key) :
    Meets text goal r (r.meet goal) := by
  cases goal with
  | anyDocument => exact anyDocument_meets h
  | explicitDocument => exact explicitDocument_meets h
  | documentContent => exact documentContent_meets h
  | documentEnd => exact documentEnd_meets h
  | node block indentless => exact readNode_meets h block indentless
  | blockItems => exact blockItems_meets h
  | indentlessItems => exact indentlessItems_meets h
  | blockKey => exact blockKey_meets h
  | blockValue => exact blockValue_meets h
  | flowItems first => exact flowItems_meets h first
  | pairKey => exact pairKey_meets h (hkey rfl)
  | pairValue => exact pairValue_meets h
  | pairEnd => exact pairEnd_meets h
  | flowKey first => exact flowKey_meets h first
  | flowValue => exact flowValue_meets h
  | flowNoValue => exact flowNoValue_meets h

end

/-! ### all steps -/

end Reader

/-- A run gives the events that goals lead to, or the front of those if it stops, and it stops for
a reason in the text. -/
structure EventRun.Reads (text : List Char) (goals : List Goal) (run : EventRun) : Prop where
  halt : ∀ halt, run.halt = some halt → halt.IsOf text
  events : ∃ es, Yields goals es ∧ run.events <+: es ∧ (run.halt = none → run.events = es)

namespace Reader

variable {text : List Char}

theorem reads_nil : EventRun.Reads text [] ⟨[], none⟩ :=
  ⟨nofun, [], rfl, List.nil_prefix, fun _ => rfl⟩

theorem reads_stop (goals : List Goal) {halt : Halt} (h : halt.IsOf text) :
    EventRun.Reads text goals ⟨[], some halt⟩ := by
  obtain ⟨es, hes⟩ := exists_yields goals
  refine ⟨?_, es, hes, List.nil_prefix, nofun⟩
  rintro _ ⟨⟩
  exact h

/-- A step in front of a run. -/
theorem Leaves.reads {goal : Goal} {r r' : Reader} {event : Option Event} {new : List Goal}
    (h : Leaves text goal r event r' new) {more : EventRun} (hmore : more.Reads text r'.goals) :
    EventRun.Reads text (goal :: r.goals)
      { more with events := event.toList ++ more.events } := by
  obtain ⟨es, hes, hprefix, hall⟩ := hmore.events
  rw [h.goals] at hes
  obtain ⟨front, back, rfl, hfront, hback⟩ := yields_append.mp hes
  refine ⟨hmore.halt, event.toList ++ (front ++ back), ?_, ?_, fun hnone => ?_⟩
  · exact ⟨event.toList ++ front, back, (List.append_assoc ..).symm, h.yields front hfront, hback⟩
  · exact (List.prefix_append_right_inj _).mpr hprefix
  · exact congrArg (event.toList ++ ·) (hall hnone)

/-- A step costs, whatever lies below its goal. -/
theorem Leaves.cost_append {goal : Goal} {r r' : Reader} {event : Option Event} {new : List Goal}
    (h : Leaves text goal r event r' new) (old : List Goal) :
    r'.cost (new ++ old) < r.cost (goal :: old) := by
  have hnew := goalsWeightAt_append r'.next? new old
  have hgoal : r.cost (goal :: old) = r.cost [goal] + goalsWeight old := by
    rw [Reader.cost, Reader.cost, goalsWeightAt_cons, goalsWeightAt_cons, goalsWeight]
    omega
  have hless := h.cost
  rw [hgoal]
  unfold Reader.cost at hless ⊢
  omega

theorem readFrom_of_error (fuel : Nat) {r : Reader} {goal : Goal} {halt : Halt}
    (h : r.meet goal = .error halt) :
    readFrom (fuel + 1) { r with goals := goal :: r.goals } = ⟨[], some halt⟩ := by
  simp only [readFrom, h]

theorem readFrom_of_ok (fuel : Nat) {r r' : Reader} {goal : Goal} {event : Option Event}
    (h : r.meet goal = .ok (event, r')) :
    readFrom (fuel + 1) { r with goals := goal :: r.goals }
      = { readFrom fuel r' with events := event.toList ++ (readFrom fuel r').events } := by
  simp only [readFrom, h]

/-- As many steps as the goals cost are enough. -/
theorem readFrom_reads (fuel : Nat) (r : Reader) (h : r.Sound text)
    (hkey : AtKey r.next? r.goals) (hcost : r.cost r.goals ≤ fuel) :
    (readFrom fuel r).Reads text r.goals := by
  induction fuel generalizing r with
  | zero =>
    cases hgoals : r.goals with
    | nil => exact reads_nil
    | cons goal goals =>
      have hpos := goal.weightAt_pos r.next?
      rw [hgoals, cost, goalsWeightAt_cons] at hcost
      omega
  | succ fuel ih =>
    obtain ⟨tokens, halt, handles, goals⟩ := r
    cases goals with
    | nil => exact reads_nil
    | cons goal goals =>
      let r : Reader := ⟨tokens, halt, handles, goals⟩
      have hmeet : Meets text goal r (r.meet goal) := @meet_meets text r h goal hkey.1
      cases hresult : r.meet goal with
      | error halt =>
        rw [hresult] at hmeet
        rw [readFrom_of_error fuel hresult]
        exact reads_stop _ hmeet
      | ok out =>
        obtain ⟨event, r'⟩ := out
        rw [hresult] at hmeet
        obtain ⟨new, hleaves⟩ := hmeet
        rw [readFrom_of_ok fuel hresult]
        refine hleaves.reads (ih r' hleaves.sound ?_ ?_)
        · rw [hleaves.goals]
          exact hleaves.atKey.append hkey.2
        · have hless : r'.cost (new ++ goals) < r.cost (goal :: goals) :=
            hleaves.cost_append goals
          rw [hleaves.goals]
          exact Nat.le_of_lt_succ (Nat.lt_of_lt_of_le hless hcost)

end Reader

/-- **The events of tokens are nested.**  Tokens that a text may have give the events of whole
documents, or the front of those if something in the text stops them. -/
theorem readEvents_reads {text : List Char} {run : TokenRun} (h : run.IsOf text) :
    (∀ halt, (readEvents run).halt = some halt → halt.IsOf text)
      ∧ ∃ documents, (readEvents run).events <+: documentEvents documents
        ∧ ((readEvents run).halt = none → (readEvents run).events = documentEvents documents) := by
  have hcost : (Reader.start run).cost [.anyDocument] ≤ 8 * (run.tokens.length + 4) := by
    show 8 * run.tokens.length + 7 ≤ _
    omega
  have hkey : AtKey (Reader.start run).next? [.anyDocument] := .of_not_mem (by decide)
  have hreads := Reader.readFrom_reads _ (Reader.start run) h hkey hcost
  obtain ⟨es, hes, hprefix, hall⟩ := hreads.events
  obtain ⟨documents, rfl⟩ := yields_single.mp hes
  exact ⟨hreads.halt, documents, hprefix, hall⟩

end YamlSpan
