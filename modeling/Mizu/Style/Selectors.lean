import Mizu.Style.Parse

/-!
# Selectors

A style block is a list of rule sets: a selector, its conditions and its declarations. `expectedRules` are what the rule
sets that match a node declare, those of its tag under those of its class under those of its id. The map of the parser
keeps for each key one rule set, the last one.

* `parseStyle_ruleSets`: what an accepted block leaves in the map.
* `baseRules_expected_iff`: a node has its expected rules exactly if, for every property, the rule sets that are kept for
  its keys declare last what the rule sets that match it declare last.
-/

namespace Mizu.Style

open List

/-! ## Rule sets -/

/-- A selector with its conditions and declarations. -/
structure RuleSet (env : StyleEnv) where
  token : String
  conditions : List (VariantCondition env.Pixels)
  declarations : List (Declaration env.Value)

/-- What declarations declare, one after the other. -/
def rulesOf {V : Type} (declarations : List (Declaration V)) : StyleRules V :=
  declarations.foldl StyleRules.apply .empty

/-- The key of an accepted selector. -/
def storedKey (token : String) : String :=
  match token.toList with
  | '.' :: name => String.ofList name
  | _ => token

section RuleSets

variable (env : StyleEnv)

/-- The rule set that a selector line begins. -/
def ruleSetOf (trimmed : List Char) (lineNum : Nat) : RuleSet env where
  token := (splitWhitespace (String.ofList trimmed)).head?.getD ""
  conditions :=
    ((parseVariantConditions env lineNum (splitWhitespace (String.ofList trimmed)).tail).toOption).getD []
  declarations := []

/-- A rule set with a further property line. -/
def RuleSet.add {env : StyleEnv} (r : RuleSet env) (trimmed : List Char) (lineNum : Nat) : RuleSet env :=
  { r with declarations := r.declarations ++ (parsePropertyLine env trimmed lineNum).toOption.toList }

/-- The rule sets of some lines, the first of which may belong to `current`. -/
def ruleSetsFrom (lineNum : Nat) (baseline : Option Nat) (current : Option (RuleSet env)) :
    List (List Char) → List (RuleSet env)
  | [] => current.toList
  | line :: rest =>
    let trimmed := trimChars line
    if trimmed = [] then ruleSetsFrom (lineNum + 1) baseline current rest
    else
      let base := baseline.getD (leadingSpaces line)
      if leadingSpaces line = base then
        current.toList ++ ruleSetsFrom (lineNum + 1) (some base) (some (ruleSetOf env trimmed lineNum)) rest
      else ruleSetsFrom (lineNum + 1) (some base) (current.map fun r => r.add trimmed lineNum) rest

/-- The rule sets of a style block. -/
def ruleSets (styleContent : List Char) : List (RuleSet env) := ruleSetsFrom env 1 none none (lines styleContent)

end RuleSets

/-! ## What a block leaves in the map -/

section Parse

variable {env : StyleEnv} {s s' : StyleState env} {lineNum : Nat} {current : Option (RuleSet env)}

/-- The map with a rule set that has no conditions. -/
def store (result : FxHashMap String (StyleRules env.Value)) (r : RuleSet env) :
    FxHashMap String (StyleRules env.Value) :=
  if r.conditions.isEmpty then result.insert (storedKey r.token) (rulesOf r.declarations) else result

/-- The rule set that the parser is in. -/
structure Tracks (s : StyleState env) (current : Option (RuleSet env)) : Prop where
  currentClass : s.currentClass = current.map fun r => storedKey r.token
  conditions : s.currentConditions = (current.map (·.conditions)).getD []
  rules : s.currentRules = rulesOf ((current.map (·.declarations)).getD [])

theorem Tracks.flush_result (h : Tracks s current) : s.flush.result = current.toList.foldl store s.result := by
  cases current with
  | none =>
    have hclass : s.currentClass = none := h.currentClass
    rw [StyleState.flush, hclass]
    rfl
  | some r =>
    have hclass : s.currentClass = some (storedKey r.token) := h.currentClass
    have hconditions : s.currentConditions = r.conditions := h.conditions
    have hrules : s.currentRules = rulesOf r.declarations := h.rules
    rw [StyleState.flush, hclass]
    simp only [hconditions, hrules, Option.toList_some, foldl_cons, foldl_nil, store]
    split <;> rfl

theorem flush_conditions (s : StyleState env) : s.flush.currentRules = .empty ∨ s.currentClass = none := by
  grind [StyleState.flush]

theorem flush_propErrors (s : StyleState env) : s.flush.propErrors = s.propErrors := by
  grind [StyleState.flush]

theorem flush_baseline (s : StyleState env) : s.flush.baseline = s.baseline := by
  grind [StyleState.flush]

theorem selectorKey_ok {token key : String} (h : selectorKey env token lineNum = .ok key) : key = storedKey token := by
  unfold selectorKey at h
  unfold storedKey
  split at h
  · rename_i name heq
    rw [heq]
    split at h
    · cases h
    · exact (Except.ok.inj h).symm
  · rename_i name heq
    rw [heq]
    split at h
    · cases h
    · exact (Except.ok.inj h).symm
  · rename_i hdot hhash
    split at h
    · grind
    · cases h

/-- A selector line ends the rule set before it and begins one. -/
theorem selectorLine_tracks {trimmed : List Char} (h : selectorLine env trimmed lineNum s = .ok s')
    (htracks : Tracks s current) :
    Tracks s' (some (ruleSetOf env trimmed lineNum)) ∧ s'.result = current.toList.foldl store s.result ∧
      s'.propErrors = s.propErrors ∧ s'.baseline = s.baseline := by
  unfold selectorLine at h
  dsimp only at h
  split at h
  · cases h
  · rename_i name hname
    split at h
    · cases h
    · rename_i conditions hconditions
      obtain rfl := Except.ok.inj h
      refine ⟨⟨?_, ?_, ?_⟩, htracks.flush_result, flush_propErrors s, flush_baseline s⟩
      · exact congrArg some (selectorKey_ok hname)
      · show conditions = ((parseVariantConditions env lineNum _).toOption).getD []
        rw [hconditions]
        rfl
      · show s.flush.currentRules = .empty
        rcases flush_conditions s with hrules | hclass
        · exact hrules
        · -- nothing was declared before the first selector
          have hnone : current = none := by grind [htracks.currentClass, Option.map_eq_none_iff]
          have hrules := htracks.rules
          rw [hnone] at hrules
          rw [StyleState.flush, hclass]
          exact hrules

/-- A property line adds its declaration, or an error. -/
theorem propertyLine_tracks {trimmed : List Char} (h : propertyLine env trimmed lineNum s = .ok s')
    (htracks : Tracks s current) :
    s'.result = s.result ∧ s'.baseline = s.baseline ∧
      (s'.propErrors = [] → s.propErrors = [] ∧ Tracks s' (current.map fun r => r.add trimmed lineNum)) := by
  unfold propertyLine at h
  split at h
  · cases h
  · rename_i hsome
    split at h
    · obtain rfl := Except.ok.inj h
      refine ⟨rfl, rfl, fun hnil => ?_⟩
      exact absurd hnil (append_ne_nil_of_right_ne_nil _ (cons_ne_nil _ _))
    · rename_i declaration hdeclaration
      obtain rfl := Except.ok.inj h
      refine ⟨rfl, rfl, fun hnil => ⟨hnil, ?_⟩⟩
      cases current with
      | none =>
        have hclass : s.currentClass = none := htracks.currentClass
        rw [hclass] at hsome
        exact absurd rfl hsome
      | some r =>
        refine ⟨htracks.currentClass, htracks.conditions, ?_⟩
        have hrules : s.currentRules = rulesOf r.declarations := htracks.rules
        show s.currentRules.apply declaration =
          rulesOf (r.declarations ++ (parsePropertyLine env trimmed lineNum).toOption.toList)
        rw [hdeclaration, hrules]
        simp [rulesOf, Except.toOption]

theorem styleLine_tracks {line : List Char} (rest : List (List Char)) (h : styleLine env lineNum line s = .ok s')
    (htracks : Tracks s current) (hnil : s'.propErrors = []) :
    ∃ current', s.propErrors = [] ∧ Tracks s' current' ∧
      (ruleSetsFrom env lineNum s.baseline current (line :: rest)).foldl store s.result =
        (ruleSetsFrom env (lineNum + 1) s'.baseline current' rest).foldl store s'.result := by
  unfold styleLine at h
  rw [ruleSetsFrom]
  by_cases hblank : trimChars line = []
  · grind
  · rw [if_neg hblank] at h ⊢
    split at h
    · cases h
    · dsimp only at h
      have hbase : Tracks { s with baseline := some (s.baseline.getD (leadingSpaces line)) } current :=
        ⟨htracks.currentClass, htracks.conditions, htracks.rules⟩
      split at h
      · cases h
      · split at h
        · rename_i heq
          obtain ⟨htracks', hresult, herrors, hbaseline⟩ := selectorLine_tracks h hbase
          refine ⟨_, herrors ▸ hnil, htracks', ?_⟩
          rw [if_pos heq, foldl_append, hresult, hbaseline]
        · rename_i hne
          obtain ⟨hresult, hbaseline, hok⟩ := propertyLine_tracks h hbase
          obtain ⟨hnil', htracks'⟩ := hok hnil
          refine ⟨_, hnil', htracks', ?_⟩
          rw [if_neg hne, hresult, hbaseline]

/-- The errors of the properties only become more. -/
theorem styleLine_propErrors {line : List Char} (h : styleLine env lineNum line s = .ok s') :
    s.propErrors <+: s'.propErrors := by
  unfold styleLine at h
  by_cases hblank : trimChars line = []
  · rw [if_pos hblank] at h
    obtain rfl := Except.ok.inj h
    exact prefix_rfl
  · rw [if_neg hblank] at h
    split at h
    · cases h
    · dsimp only at h
      split at h
      · cases h
      · split at h
        · grind [selectorLine, flush_propErrors]
        · unfold propertyLine at h
          split at h
          · cases h
          · grind

theorem styleLines_propErrors {ls : List (List Char)} (h : styleLines env lineNum s ls = .ok s') :
    s.propErrors <+: s'.propErrors := by
  induction ls generalizing s lineNum with
  | nil =>
    obtain rfl := Except.ok.inj h
    exact prefix_rfl
  | cons line rest ih =>
    rw [styleLines] at h
    cases hline : styleLine env lineNum line s with
    | error e =>
      rw [hline] at h
      cases h
    | ok t =>
      rw [hline] at h
      exact (styleLine_propErrors hline).trans (ih h)

theorem styleLines_tracks {ls : List (List Char)} (h : styleLines env lineNum s ls = .ok s')
    (htracks : Tracks s current) (hnil : s'.propErrors = []) :
    s.propErrors = [] ∧
      s'.flush.result = (ruleSetsFrom env lineNum s.baseline current ls).foldl store s.result := by
  induction ls generalizing s lineNum current with
  | nil =>
    obtain rfl := Except.ok.inj h
    exact ⟨hnil, htracks.flush_result⟩
  | cons line rest ih =>
    rw [styleLines] at h
    cases hline : styleLine env lineNum line s with
    | error e =>
      rw [hline] at h
      cases h
    | ok t =>
      rw [hline] at h
      have hnil' : t.propErrors = [] := prefix_nil.mp (hnil ▸ styleLines_propErrors h)
      obtain ⟨current', hs, htracks', heq⟩ := styleLine_tracks rest hline htracks hnil'
      exact ⟨hs, heq ▸ (ih h htracks').2⟩

/-- The map of an accepted block: every rule set without conditions is stored under its key. -/
theorem parseStyle_ruleSets {styleContent : List Char} {rules : FxHashMap String (StyleRules env.Value)}
    {variants : List (StyleVariant env)} (h : parseStyleWithVariants env styleContent = .ok (rules, variants)) :
    rules = (ruleSets env styleContent).foldl store ∅ := by
  unfold parseStyleWithVariants at h
  split at h
  · cases h
  · rename_i s hs
    split at h
    · rename_i hnil
      have hrules := (Prod.mk.inj (Except.ok.inj h)).1
      have hinit : Tracks ({} : StyleState env) none := ⟨rfl, rfl, rfl⟩
      rw [← hrules, (styleLines_tracks hs hinit hnil).2]
      rfl
    · cases h

end Parse

/-! ## Keys and selectors -/

section Keys

variable {env : StyleEnv}

/-- The rule sets that go to the map under a key. -/
def setsUnder (sets : List (RuleSet env)) (key : String) : List (RuleSet env) :=
  sets.filter fun r => r.conditions.isEmpty && storedKey r.token = key

/-- What the last rule set under a key declares. -/
def keptDeclarations (sets : List (RuleSet env)) (key : String) : List (Declaration env.Value) :=
  ((setsUnder sets key).getLast?.map (·.declarations)).getD []

theorem lookup_foldl_store (sets : List (RuleSet env)) (key : String)
    (result : FxHashMap String (StyleRules env.Value)) :
    (sets.foldl store result).lookup key =
      ((setsUnder sets key).getLast?.map fun r => rulesOf r.declarations).or (result.lookup key) := by
  induction sets using List.reverseRecOn with
  | nil => rfl
  | append_singleton sets r ih =>
    rw [foldl_append, foldl_cons, foldl_nil, store, setsUnder, filter_append]
    by_cases hconditions : r.conditions.isEmpty
    · by_cases hkey : storedKey r.token = key
      · simp [hconditions, hkey]
      · rw [if_pos hconditions, Finmap.lookup_insert_of_ne _ (Ne.symm hkey), ih]
        simp [hkey, setsUnder]
    · rw [if_neg hconditions, ih]
      simp [hconditions, setsUnder]

theorem mergeFrom_empty {V : Type} (rules : StyleRules V) : rules.mergeFrom .empty = rules := by
  simp [StyleRules.mergeFrom, StyleRules.empty]

/-- A key of the map adds what the last rule set under it declares. -/
theorem mergeKey_eq (sets : List (RuleSet env)) (merged : StyleRules env.Value) (key : String) :
    mergeKey (sets.foldl store ∅) merged key = merged.mergeFrom (rulesOf (keptDeclarations sets key)) := by
  rw [mergeKey, lookup_foldl_store, Finmap.lookup_empty, Option.or_none, keptDeclarations]
  cases (setsUnder sets key).getLast? with
  | none => exact (mergeFrom_empty merged).symm
  | some r => rfl

/-- A selector, as it is meant. -/
inductive Selector where
  | tag (name : String)
  | cls (name : String)
  | id (name : String)
  deriving DecidableEq, Repr

/-- The selector of an accepted token: a tag in any spelling is a tag. -/
def Selector.ofToken (env : StyleEnv) (token : String) : Selector :=
  match token.toList with
  | '.' :: name => .cls (String.ofList name)
  | '#' :: name => .id (String.ofList name)
  | _ => .tag (env.table.toLowercase token)

/-- The key that the rules of a selector are looked up under. -/
def Selector.key : Selector → String
  | tag name => name
  | cls name => name
  | id name => "#" ++ name

/-- The selectors that match a node, in the order in which they are merged. -/
def selectorsOf (node : Layout.MizuNode) : List Selector :=
  .tag node.styleTagName :: ((node.attributes.lookup "class").map Selector.cls).toList ++
    ((node.attributes.lookup "id").map Selector.id).toList

/-- What the rule sets of a selector without conditions declare. -/
def declarationsOf (sets : List (RuleSet env)) (selector : Selector) : List (Declaration env.Value) :=
  (sets.filter fun r => r.conditions.isEmpty && Selector.ofToken env r.token = selector).flatMap (·.declarations)

/-- The base rules that a node should have. -/
def expectedRules (sets : List (RuleSet env)) (node : Layout.MizuNode) : StyleRules env.Value :=
  (selectorsOf node).foldl (fun merged selector => merged.mergeFrom (rulesOf (declarationsOf sets selector))) .empty

theorem baseRules_eq (sets : List (RuleSet env)) (node : Layout.MizuNode) :
    baseRules (sets.foldl store ∅) node =
      (selectorsOf node).foldl
        (fun merged selector => merged.mergeFrom (rulesOf (keptDeclarations sets selector.key))) .empty := by
  grind [mergeKey_eq, Selector.key, baseRules, selectorsOf]

end Keys

/-! ## The rules of a node -/

section Node

variable {env : StyleEnv} {V : Type} {ds es : List (Declaration V)}

/-- The value that a property is set to last. -/
def lastSet (property : Property) (declarations : List (Declaration V)) : Option V :=
  declarations.reverse.findSome? fun
    | .set p v => if property = p then some v else none
    | _ => none

theorem rulesOf_concat (ds : List (Declaration V)) (d : Declaration V) : rulesOf (ds ++ [d]) = (rulesOf ds).apply d := by
  rw [rulesOf, foldl_append]
  rfl

theorem rulesOf_declared (ds : List (Declaration V)) (property : Property) :
    (rulesOf ds).declared property = lastSet property ds := by
  induction ds using List.reverseRecOn with
  | nil => rfl
  | append_singleton ds d ih =>
    rw [rulesOf_concat, lastSet, reverse_append, reverse_singleton, singleton_append,
      List.findSome?_cons]
    cases d with
    | set p v =>
      by_cases hp : property = p
      · simp [StyleRules.apply, hp]
      · simp only [StyleRules.apply, if_neg hp]
        exact ih
    | overflow o => exact ih
    | zIndex z => exact ih

theorem lastSet_append (property : Property) (ds es : List (Declaration V)) :
    lastSet property (ds ++ es) = (lastSet property es).or (lastSet property ds) := by
  rw [lastSet, reverse_append, List.findSome?_append]
  rfl

/-- The first of some values that is not the default one. -/
def firstSet {α : Type} [DecidableEq α] (default : α) : List α → α
  | [] => default
  | a :: as => if a ≠ default then a else firstSet default as

/-- What is merged, property by property, the strongest first. -/
theorem foldl_mergeFrom (parts : List (List (Declaration V))) :
    let merged := (parts.map rulesOf).foldl StyleRules.mergeFrom .empty
    (∀ property, merged.declared property = lastSet property parts.flatten) ∧
      merged.overflow = firstSet .visible (parts.reverse.map fun ds => (rulesOf ds).overflow) ∧
      merged.zIndex = firstSet 0 (parts.reverse.map fun ds => (rulesOf ds).zIndex) := by
  induction parts using List.reverseRecOn with
  | nil => exact ⟨fun _ => rfl, rfl, rfl⟩
  | append_singleton parts ds ih =>
    obtain ⟨hdeclared, hoverflow, hzIndex⟩ := ih
    simp only [map_append, map_cons, map_nil, foldl_append, foldl_cons, foldl_nil,
      reverse_append, reverse_cons, reverse_nil, nil_append, singleton_append, firstSet,
      flatten_append, flatten_cons, flatten_nil, append_nil]
    refine ⟨fun property => ?_, ?_, ?_⟩
    · rw [lastSet_append, ← rulesOf_declared ds, ← hdeclared]
      rfl
    · rw [← hoverflow]
      rfl
    · rw [← hzIndex]
      rfl

/-- The rule sets that are kept for a node declare last what those that match it do: every property, and the values of
`overflow` and `z-index`, of which a default is as good as none below another selector. -/
structure DeclareAlike (sets : List (RuleSet env)) (node : Layout.MizuNode) : Prop where
  declared : ∀ property,
    lastSet property ((selectorsOf node).map fun selector => keptDeclarations sets selector.key).flatten =
      lastSet property ((selectorsOf node).map fun selector => declarationsOf sets selector).flatten
  overflow :
    firstSet .visible
        ((selectorsOf node).reverse.map fun selector => (rulesOf (keptDeclarations sets selector.key)).overflow) =
      firstSet .visible
        ((selectorsOf node).reverse.map fun selector => (rulesOf (declarationsOf sets selector)).overflow)
  zIndex :
    firstSet 0
        ((selectorsOf node).reverse.map fun selector => (rulesOf (keptDeclarations sets selector.key)).zIndex) =
      firstSet 0 ((selectorsOf node).reverse.map fun selector => (rulesOf (declarationsOf sets selector)).zIndex)

/-- Each key of the node has at most one rule set, and that is the one of its selector. -/
def OwnKeys (sets : List (RuleSet env)) (node : Layout.MizuNode) : Prop :=
  ∀ selector ∈ selectorsOf node, (setsUnder sets selector.key).length ≤ 1 ∧
    ∀ r ∈ sets, r.conditions.isEmpty → (storedKey r.token = selector.key ↔ Selector.ofToken env r.token = selector)

theorem StyleRules.eq_iff {a b : StyleRules V} :
    a = b ↔
      (∀ property, a.declared property = b.declared property) ∧ a.overflow = b.overflow ∧ a.zIndex = b.zIndex := by
  constructor
  · rintro rfl
    exact ⟨fun _ => rfl, rfl, rfl⟩
  · rintro ⟨hdeclared, hoverflow, hzIndex⟩
    obtain ⟨declared, overflow, zIndex⟩ := a
    obtain ⟨declared', overflow', zIndex'⟩ := b
    obtain rfl : declared = declared' := funext hdeclared
    obtain rfl : overflow = overflow' := hoverflow
    obtain rfl : zIndex = zIndex' := hzIndex
    rfl

/-- What the rule sets of some selectors give, merged in their order. -/
theorem foldl_selectors (selectors : List Selector) (declarations : Selector → List (Declaration V)) :
    selectors.foldl (fun merged selector => merged.mergeFrom (rulesOf (declarations selector))) .empty =
      ((selectors.map declarations).map rulesOf).foldl StyleRules.mergeFrom .empty := by
  rw [foldl_map, foldl_map]

theorem baseRules_eq_expected_iff (sets : List (RuleSet env)) (node : Layout.MizuNode) :
    baseRules (sets.foldl store ∅) node = expectedRules sets node ↔ DeclareAlike sets node := by
  have hkept := foldl_mergeFrom ((selectorsOf node).map fun selector => keptDeclarations sets selector.key)
  have hmatching := foldl_mergeFrom ((selectorsOf node).map fun selector => declarationsOf sets selector)
  dsimp only at hkept hmatching
  obtain ⟨hdeclared, hoverflow, hzIndex⟩ := hkept
  obtain ⟨hdeclared', hoverflow', hzIndex'⟩ := hmatching
  rw [← map_reverse, map_map (g := fun ds : List (Declaration env.Value) => (rulesOf ds).overflow)]
    at hoverflow hoverflow'
  rw [← map_reverse, map_map (g := fun ds : List (Declaration env.Value) => (rulesOf ds).zIndex)]
    at hzIndex hzIndex'
  rw [baseRules_eq, expectedRules,
    foldl_selectors (selectorsOf node) fun selector => keptDeclarations sets selector.key,
    foldl_selectors, StyleRules.eq_iff, hoverflow, hzIndex, hoverflow', hzIndex']
  constructor
  · rintro ⟨h₁, h₂, h₃⟩
    exact ⟨fun property => by rw [← hdeclared, ← hdeclared']; exact h₁ property, h₂, h₃⟩
  · rintro ⟨h₁, h₂, h₃⟩
    exact ⟨fun property => by rw [hdeclared, hdeclared']; exact h₁ property, h₂, h₃⟩

theorem keptDeclarations_of_ownKeys {sets : List (RuleSet env)} {node : Layout.MizuNode} (h : OwnKeys sets node)
    {selector : Selector} (hmem : selector ∈ selectorsOf node) :
    keptDeclarations sets selector.key = declarationsOf sets selector := by
  obtain ⟨hlength, hown⟩ := h selector hmem
  have hsets : (sets.filter fun r => r.conditions.isEmpty && Selector.ofToken env r.token = selector) =
      setsUnder sets selector.key := by
    refine filter_congr fun r hr => ?_
    cases hconditions : r.conditions.isEmpty with
    | false => rfl
    | true => rw [Bool.true_and, Bool.true_and, decide_eq_decide]; exact (hown r hr hconditions).symm
  rw [keptDeclarations, declarationsOf, hsets]
  cases hunder : setsUnder sets selector.key with
  | nil => rfl
  | cons r rest => grind

theorem declareAlike_of_ownKeys {sets : List (RuleSet env)} {node : Layout.MizuNode} (h : OwnKeys sets node) :
    DeclareAlike sets node := by
  have hparts : ((selectorsOf node).map fun selector => keptDeclarations sets selector.key) =
      (selectorsOf node).map fun selector => declarationsOf sets selector :=
    map_congr_left fun selector hmem => keptDeclarations_of_ownKeys h hmem
  have hreverse : ∀ {β : Type} (f : List (Declaration env.Value) → β),
      ((selectorsOf node).reverse.map fun selector => f (keptDeclarations sets selector.key)) =
        (selectorsOf node).reverse.map fun selector => f (declarationsOf sets selector) := by
    intro β f
    refine map_congr_left fun selector hmem => ?_
    rw [keptDeclarations_of_ownKeys h (mem_reverse.mp hmem)]
  exact ⟨fun property => by rw [hparts], by rw [hreverse fun ds => (rulesOf ds).overflow],
    by rw [hreverse fun ds => (rulesOf ds).zIndex]⟩

end Node

/-- Values are kept as they are written. -/
def writtenValues : StyleEnv where
  table := latinTable
  Value := String
  parseValue _ value _ := .ok value
  Pixels := String
  parsePixels := some

/-- The selector `.a` with one property. -/
def classOnce : List Char := ['.', 'a', '\n', ' ', 'g', 'a', 'p', ' ', '1', '\n']

/-- The selector `.a` twice, each time with another property. -/
def classTwice : List Char := classOnce ++ ['.', 'a', '\n', ' ', 'c', 'o', 'l', 'o', 'r', ' ', '2', '\n']

/-- A box of the class `a`. -/
def classBox : Layout.MizuNode where
  primitive := .box
  attributes := (∅ : FxHashMap String String).insert "class" "a"

theorem classOnce_ruleSets : ruleSets writtenValues classOnce = [⟨".a", [], [.set .gap "1"]⟩] := rfl

theorem classTwice_ruleSets :
    ruleSets writtenValues classTwice = [⟨".a", [], [.set .gap "1"]⟩, ⟨".a", [], [.set .color "2"]⟩] := rfl

theorem classBox_selectors : selectorsOf classBox = [.tag "box", .cls "a"] := rfl

end Mizu.Style
