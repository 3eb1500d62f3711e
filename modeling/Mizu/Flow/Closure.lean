import Mizu.Flow.Check
import Mizu.Logic.Reads

/-!
# The taint fixpoint

The worklist of the information-flow check stops at a set of symbols that is closed under the edges of the
dependency graph.

* `propagate_closed`: with enough fuel the worklist runs empty, and nothing that depends on a tainted symbol is
  left out.
* `taintOf_closed`: so for a document.
-/

namespace Mizu

open Exec List

theorem countP_lt {α : Type} {p q : α → Bool} {l : List α} (himp : ∀ a ∈ l, q a = true → p a = true) {a : α}
    (ha : a ∈ l) (hp : p a = true) (hq : ¬q a = true) : l.countP q < l.countP p := by
  obtain ⟨l₁, l₂, rfl⟩ := append_of_mem ha
  have h₁ : l₁.countP q ≤ l₁.countP p := countP_mono_left fun x hx => himp x (by simp [hx])
  have h₂ : l₂.countP q ≤ l₂.countP p := countP_mono_left fun x hx => himp x (by simp [hx])
  rw [countP_append, countP_append, countP_cons_of_pos hp, countP_cons_of_neg hq]
  omega

variable {graph : TaintGraph} {dep : Dependent} {sym : Symbol} (interner : Interner)

namespace Taint

/-- Tainted as a variable or as a function. -/
def Marked (t : Taint) (sym : Symbol) : Prop := sym ∈ t.vars ∨ sym ∈ t.functions

/-- What depends on a tainted symbol has been found. -/
def Reached (t : Taint) : Dependent → Prop
  | .function sym => sym ∈ t.functions
  | .comp sym | .assign sym => sym ∈ t.vars

instance (t : Taint) (dep : Dependent) : Decidable (t.Reached dep) := by
  cases dep <;> unfold Reached <;> infer_instance

/-- The edges whose end has not been found. -/
def unreached (graph : TaintGraph) (t : Taint) : Nat := graph.countP fun edge => !decide (t.Reached edge.2)

structure Le (t t' : Taint) : Prop where
  vars : t.vars ⊆ t'.vars
  functions : t.functions ⊆ t'.functions

theorem Le.refl (t : Taint) : t.Le t := ⟨Finset.Subset.refl _, Finset.Subset.refl _⟩

theorem Le.trans {t t' t'' : Taint} (h : t.Le t') (h' : t'.Le t'') : t.Le t'' :=
  ⟨h.vars.trans h'.vars, h.functions.trans h'.functions⟩

theorem Le.reached {t t' : Taint} (h : t.Le t') (hdep : t.Reached dep) : t'.Reached dep := by
  cases dep with
  | function sym => exact h.functions hdep
  | comp | assign => exact h.vars hdep

/-- What some visits do to the marks and the worklist. -/
structure Visits (graph : TaintGraph) (t t' : Taint) : Prop where
  le : t.Le t'
  fresh : ∀ sym, t'.Marked sym → t.Marked sym ∨ sym ∈ t'.worklist
  worklist : t.worklist ⊆ t'.worklist
  fuel : t'.worklist.length + t'.unreached graph ≤ t.worklist.length + t.unreached graph

theorem Visits.refl (graph : TaintGraph) (t : Taint) : Visits graph t t :=
  ⟨Le.refl t, fun _ h => .inl h, List.Subset.refl _, Nat.le_refl _⟩

theorem Visits.trans {t t' t'' : Taint} (h : Visits graph t t')
    (h' : Visits graph t' t'') : Visits graph t t'' where
  le := h.le.trans h'.le
  fresh sym hsym := by
    rcases h'.fresh sym hsym with hmarked | hmem
    · exact (h.fresh sym hmarked).imp_right fun hmem => h'.worklist hmem
    · exact .inr hmem
  worklist := List.Subset.trans h.worklist h'.worklist
  fuel := h'.fuel.trans h.fuel

/-- A dependent that is found for the first time goes on the worklist, and an edge to it is used up. -/
theorem Visits.of_push {t t' : Taint} (hle : t.Le t') (hfresh : ∀ s, t'.Marked s → t.Marked s ∨ s = sym)
    (hworklist : t'.worklist = sym :: t.worklist) {source : Symbol} (hedge : (source, dep) ∈ graph)
    (hnew : ¬t.Reached dep) (hdep : t'.Reached dep) : Visits graph t t' where
  le := hle
  fresh s hs := (hfresh s hs).imp_right fun heq => by simp [hworklist, heq]
  worklist := by
    rw [hworklist]
    exact subset_cons_self _ _
  fuel := by
    -- The edge counts before and not after.
    have hlt : t'.unreached graph < t.unreached graph := by
      refine countP_lt (fun edge _ hleft => ?_) hedge (by simpa using hnew) (by simpa using hdep)
      simp only [Bool.not_eq_true', decide_eq_false_iff_not] at hleft ⊢
      exact fun hreached => hleft (hle.reached hreached)
    rw [hworklist, length_cons]
    omega

theorem markVar_visits (origin : Symbol) (t : Taint) {sym source : Symbol}
    (hedge : (source, dep) ∈ graph) (hdep : ∀ t : Taint, t.Reached dep ↔ sym ∈ t.vars) :
    Visits graph t (t.markVar interner origin sym) ∧ (t.markVar interner origin sym).Reached dep := by
  unfold markVar
  by_cases hsym : sym ∈ t.vars
  · rw [if_pos hsym]
    exact ⟨Visits.refl graph t, (hdep t).mpr hsym⟩
  · rw [if_neg hsym]
    refine ⟨.of_push ⟨Finset.subset_insert _ _, Finset.Subset.refl _⟩ ?_ rfl hedge ?_ ?_, ?_⟩
    · rintro s (hs | hs)
      · exact (Finset.mem_insert.mp hs).symm.imp_left .inl
      · exact .inl (.inr hs)
    · exact fun h => hsym ((hdep t).mp h)
    · exact (hdep _).mpr (Finset.mem_insert_self sym t.vars)
    · exact (hdep _).mpr (Finset.mem_insert_self sym t.vars)

theorem visit_visits (origin : Symbol) (t : Taint) {source : Symbol} (hedge : (source, dep) ∈ graph) :
    Visits graph t (t.visit interner origin dep) ∧ (t.visit interner origin dep).Reached dep := by
  cases dep with
  | comp | assign => exact markVar_visits interner origin t hedge fun _ => Iff.rfl
  | function sym =>
    simp only [visit]
    by_cases hsym : sym ∈ t.functions
    · rw [if_pos hsym]
      exact ⟨Visits.refl graph t, hsym⟩
    · rw [if_neg hsym]
      refine ⟨.of_push ⟨Finset.Subset.refl _, Finset.subset_insert _ _⟩ ?_ rfl hedge hsym ?_, ?_⟩
      · rintro s (hs | hs)
        · exact .inl (.inl hs)
        · exact (Finset.mem_insert.mp hs).symm.imp_left .inr
      · exact Finset.mem_insert_self sym t.functions
      · exact Finset.mem_insert_self sym t.functions

theorem foldl_visits (origin : Symbol) {deps : List Dependent}
    (hdeps : ∀ dep ∈ deps, (origin, dep) ∈ graph) (t : Taint) :
    Visits graph t (deps.foldl (·.visit interner origin) t) ∧
      ∀ dep ∈ deps, (deps.foldl (·.visit interner origin) t).Reached dep := by
  induction deps generalizing t with
  | nil => exact ⟨Visits.refl graph t, fun _ h => nomatch h⟩
  | cons dep deps ih =>
    obtain ⟨hhere, hreached⟩ := visit_visits interner origin t (hdeps dep (by simp))
    obtain ⟨hrest, hall⟩ := ih (fun dep' h => hdeps dep' (by simp [h])) (t.visit interner origin dep)
    refine ⟨hhere.trans hrest, fun dep' h => ?_⟩
    rcases mem_cons.mp h with rfl | h
    · exact hrest.le.reached hreached
    · exact hall dep' h

end Taint

theorem mem_dependentsOf : dep ∈ dependentsOf graph sym ↔ (sym, dep) ∈ graph := by
  simp only [dependentsOf, mem_map, mem_filter, decide_eq_true_eq, Prod.exists]
  constructor
  · rintro ⟨s, d, ⟨hmem, rfl⟩, rfl⟩
    exact hmem
  · intro hmem
    exact ⟨sym, dep, ⟨hmem, rfl⟩, rfl⟩

variable {t : Taint}

/-- With enough fuel the worklist runs empty, and what depends on a marked symbol is found. -/
theorem propagate_closed (graph : TaintGraph) {fuel : Nat}
    (hfuel : t.worklist.length + t.unreached graph ≤ fuel)
    (hvisited : ∀ sym, t.Marked sym → sym ∈ t.worklist ∨ ∀ dep, (sym, dep) ∈ graph → t.Reached dep) :
    t.Le (propagate interner graph fuel t) ∧
      ∀ sym dep, (propagate interner graph fuel t).Marked sym → (sym, dep) ∈ graph →
        (propagate interner graph fuel t).Reached dep := by
  have hdone : t.worklist = [] →
      ∀ sym dep, t.Marked sym → (sym, dep) ∈ graph → t.Reached dep := by
    intro hempty sym dep hsym
    exact (hvisited sym hsym).resolve_left (by simp [hempty]) dep
  induction fuel generalizing t with
  | zero => exact ⟨Taint.Le.refl t, hdone (length_eq_zero_iff.mp (by omega))⟩
  | succ fuel ih =>
    unfold propagate
    cases hworklist : t.worklist with
    | nil => exact ⟨Taint.Le.refl t, hdone hworklist⟩
    | cons sym worklist =>
      dsimp only
      have hfound : ∀ dep ∈ dependentsOf graph sym, (sym, dep) ∈ graph := fun dep hdep =>
        mem_dependentsOf.mp hdep
      obtain ⟨hvisits, hall⟩ := Taint.foldl_visits interner sym hfound { t with worklist }
      generalize (dependentsOf graph sym).foldl (·.visit interner sym) { t with worklist } = t' at hvisits hall ⊢
      have hrest : ({ t with worklist } : Taint).unreached graph = t.unreached graph := rfl
      have hshorter := hvisits.fuel
      rw [hrest] at hshorter
      rw [hworklist, length_cons] at hfuel
      have hinv : ∀ s, t'.Marked s → s ∈ t'.worklist ∨ ∀ dep, (s, dep) ∈ graph → t'.Reached dep := by
        intro s hs
        rcases hvisits.fresh s hs with hold | hmem
        · rcases hvisited s hold with hmem | hreached
          · rw [hworklist] at hmem
            rcases mem_cons.mp hmem with rfl | hmem
            · exact .inr fun dep hdep => hall dep (mem_dependentsOf.mpr hdep)
            · exact .inl (hvisits.worklist hmem)
          · exact .inr fun dep hdep => hvisits.le.reached (hreached dep hdep)
        · exact .inl hmem
      obtain ⟨hle, hclosed⟩ := ih (by dsimp only at hshorter; omega) hinv fun hempty s dep hs =>
        (hinv s hs).resolve_left (by simp [hempty]) dep
      exact ⟨⟨hvisits.le.vars.trans hle.vars, hvisits.le.functions.trans hle.functions⟩, hclosed⟩

/-! ## What an expression mentions -/

section Mentions

variable (gstSym : Option Symbol)

/-- A variable, or a call that is not one of `get_system_time`. -/
def Expr.Names (e : Expr) (sym : Symbol) : Prop :=
  e = .var sym ∨ (∃ start len, e = .functionCall sym start len) ∧ some sym ≠ gstSym

def ExprTree.Mentions (tree : ExprTree) (sym : Symbol) : Prop :=
  ∃ e, tree.arena.Below tree.rootExpr e ∧ e.Names gstSym sym

/-- `isExprTainted` finds nothing. -/
def ExprTree.Clean (t : Taint) (tree : ExprTree) : Prop :=
  isExprTainted t gstSym tree.arena (walkFuel tree.arena) tree.rootExpr = .ok false

/-- Nothing it mentions is marked. -/
structure ExprTree.Untouched (t : Taint) (tree : ExprTree) : Prop where
  clean : tree.Clean gstSym t
  mentions : ∀ sym, tree.Mentions gstSym sym → ¬t.Marked sym

variable {gstSym}

theorem extractDeps_eq_walkExpr (arena : ExprArena) (fuel : Nat) (e : Expr) (out : List Symbol) :
    extractDeps gstSym arena fuel e out =
      walkExpr (fun e out =>
        match e with
        | .var sym => out.insert sym
        | .functionCall name _ _ => if some name = gstSym then out else out.insert name
        | _ => out) arena fuel e out := by
  induction fuel generalizing e out with
  | zero => rfl
  | succ fuel ih =>
    have hrec : (fun deps e => extractDeps gstSym arena fuel e deps) = fun deps e =>
        walkExpr (fun e out =>
          match e with
          | .var sym => out.insert sym
          | .functionCall name _ _ => if some name = gstSym then out else out.insert name
          | _ => out) arena fuel e deps := by
      funext deps e
      exact ih e deps
    exact congrArg (fun f => List.foldlM f _ (arena.children e)) hrec

theorem mem_extractDeps {arena : ExprArena} {fuel : Nat} {e : Expr} {out out' : List Symbol}
    (h : extractDeps gstSym arena fuel e out = .ok out') (sym : Symbol) :
    sym ∈ out' ↔ sym ∈ out ∨ ∃ e', arena.Below e e' ∧ e'.Names gstSym sym := by
  rw [extractDeps_eq_walkExpr] at h
  refine mem_walkExpr (P := fun e sym => e.Names gstSym sym) ?_ h sym
  intro e out sym
  cases e with
  | var sym' => simp [Expr.Names, or_comm, eq_comm]
  | functionCall name start len =>
    by_cases hgst : some name = gstSym
    · simp only [hgst, if_true, Expr.Names, reduceCtorEq, false_or, Expr.functionCall.injEq]
      constructor
      · exact .inl
      · grind
    · simp only [hgst, if_false, mem_insert_iff, Expr.Names, reduceCtorEq, false_or,
        Expr.functionCall.injEq]
      constructor
      · grind
      · grind
  | _ => simp [Expr.Names]

theorem anyM_false {α : Type} {f : α → Walk Bool} {xs : List α} (h : ∀ x ∈ xs, f x = .ok false) :
    xs.anyM f = .ok false := by
  induction xs with
  | nil => rfl
  | cons x xs ih =>
    rw [anyM_cons, h x (by simp)]
    exact ih fun y hy => h y (by simp [hy])

theorem of_anyM_false {α : Type} {f : α → Walk Bool} {xs : List α} (h : xs.anyM f = .ok false) :
    ∀ x ∈ xs, f x = .ok false := by
  induction xs with
  | nil => exact fun _ hx => nomatch hx
  | cons x xs ih =>
    rw [anyM_cons] at h
    obtain ⟨b, hb, h⟩ := except_of_bind_ok h
    cases b with
    | true => cases h
    | false => grind

theorem foldlM_ok_mem {α β : Type} {f : α → β → Walk α} {xs : List β} {out out' : α}
    (h : xs.foldlM f out = .ok out') : ∀ x ∈ xs, ∃ mid mid', f mid x = .ok mid' := by
  induction xs generalizing out with
  | nil => exact fun _ hx => nomatch hx
  | cons x xs ih =>
    obtain ⟨mid, hmid, hrest⟩ := foldlM_ok_cons h
    intro y hy
    rcases mem_cons.mp hy with rfl | hy
    · exact ⟨out, mid, hmid⟩
    · exact ih hrest y hy

theorem isExprTainted_false {arena : ExprArena} {fuel : Nat} {e : Expr} {out out' : List Symbol}
    (hdeps : extractDeps gstSym arena fuel e out = .ok out')
    (h : ∀ e' sym, arena.Below e e' → e'.Names gstSym sym → ¬t.Marked sym) :
    isExprTainted t gstSym arena fuel e = .ok false := by
  induction fuel generalizing e out out' with
  | zero => cases hdeps
  | succ fuel ih =>
    have hchildren : ∀ child ∈ arena.children e, isExprTainted t gstSym arena fuel child = .ok false := by
      intro child hchild
      obtain ⟨mid, mid', hmid⟩ := foldlM_ok_mem hdeps child hchild
      exact ih hmid fun e' sym hbelow => h e' sym (.step hchild hbelow)
    cases e with
    | var sym =>
      have hsym := h _ sym (.refl _) (.inl rfl)
      have hvars : sym ∉ t.vars := fun hmem => hsym (.inl hmem)
      simp only [isExprTainted, hvars, decide_false]
      rfl
    | functionCall name start len =>
      by_cases hgst : some name = gstSym
      · simp only [isExprTainted, hgst, if_true]
        rfl
      · have hname := h _ name (.refl _) (.inr ⟨⟨start, len, rfl⟩, hgst⟩)
        have hfunctions : name ∉ t.functions := fun hmem => hname (.inr hmem)
        simp only [isExprTainted, hgst, hfunctions, if_false]
        exact anyM_false hchildren
    | _ => exact anyM_false hchildren

end Mentions

/-! ## A document -/

section Document

variable {order : HashOrder} {d : Document}

/-- The taint of a document: it starts from the sources, and what depends on a tainted symbol is tainted. -/
structure TaintClosed (d : Document) (t : Taint) : Prop where
  form : ∀ sym, d.interner.get "$form" = some sym → sym ∈ t.vars
  target : ∀ method aliasSym payload pathParam targetVar format headers,
    Action.networkCall method aliasSym payload pathParam targetVar format headers ∈ d.actions →
      ∀ sym, d.interner.get targetVar = some sym → sym ∈ t.vars
  function : ∀ f ∈ d.functionOrder, ∀ func, d.functions.lookup f = some func → f ∉ t.functions →
    func.body.Untouched (d.interner.get "get_system_time") t
  comp : ∀ cb ∈ d.comps, cb.name ∉ t.vars → cb.expr.Untouched (d.interner.get "get_system_time") t
  assign : ∀ target expr, Action.assign target expr ∈ d.actions → ∀ sym, d.interner.get target = some sym →
    sym ∉ t.vars → expr.Untouched (d.interner.get "get_system_time") t

/-- An expression whose dependent is not found mentions nothing marked. -/
theorem untouched_of_edges {gstSym : Option Symbol} {tree : ExprTree}
    {edges graph : TaintGraph} (hedges : edgesTo order gstSym tree dep = .ok edges) (hsub : edges ⊆ graph)
    (hclosed : ∀ sym dep, t.Marked sym → (sym, dep) ∈ graph → t.Reached dep) (hdep : ¬t.Reached dep) :
    tree.Untouched gstSym t := by
  obtain ⟨deps, hdeps, hedges⟩ := except_of_bind_ok hedges
  cases hedges
  have hmentions : ∀ e sym, tree.arena.Below tree.rootExpr e → e.Names gstSym sym → ¬t.Marked sym := by
    intro e sym hbelow hnames hmarked
    have hmem : sym ∈ deps := (mem_extractDeps hdeps sym).mpr (.inr ⟨e, hbelow, hnames⟩)
    have hedge := hsub (mem_map_of_mem (f := (·, dep)) ((order.perm deps).mem_iff.mpr hmem))
    exact hdep (hclosed sym dep hmarked hedge)
  exact ⟨isExprTainted_false hdeps hmentions, fun sym ⟨e, hbelow, hnames⟩ => hmentions e sym hbelow hnames⟩

theorem sources_subset (acc : Sources) (action : Action) :
    acc.1 ⊆ (addNetworkSource interner acc action).1 := by
  unfold addNetworkSource
  split
  · split
    · exact fun _ h => mem_insert_of_mem h
    · exact List.Subset.refl _
  · exact List.Subset.refl _

theorem mem_addNetworkSources {interner : Interner} (actions : List Action) (acc : Sources)
    (h : sym ∈ acc.1 ∨ ∃ method aliasSym payload pathParam targetVar format headers,
      Action.networkCall method aliasSym payload pathParam targetVar format headers ∈ actions ∧
        interner.get targetVar = some sym) : sym ∈ (actions.foldl (addNetworkSource interner) acc).1 := by
  induction actions generalizing acc with
  | nil => grind
  | cons action actions ih =>
    refine ih _ ?_
    rcases h with hmem | ⟨method, aliasSym, payload, pathParam, targetVar, format, headers, hmem, hsym⟩
    · exact .inl (sources_subset interner acc action hmem)
    · rcases mem_cons.mp hmem with rfl | hmem
      · left
        simp [addNetworkSource, hsym]
      · exact .inr ⟨method, aliasSym, payload, pathParam, targetVar, format, headers, hmem, hsym⟩

/-- The form record and the targets of network calls are sources. -/
theorem mem_taintSources (h : d.interner.get "$form" = some sym ∨
      ∃ method aliasSym payload pathParam targetVar format headers,
        Action.networkCall method aliasSym payload pathParam targetVar format headers ∈ d.actions ∧
          d.interner.get targetVar = some sym) : sym ∈ (taintSources d).1 := by
  refine mem_addNetworkSources _ _ (h.imp_left fun hsym => ?_)
  rw [hsym]
  exact mem_singleton.mpr rfl

theorem taintOf_closed (h : taintOf order d = .ok t) : TaintClosed d t := by
  obtain ⟨graph, hgraph, h⟩ := except_of_bind_ok h
  generalize hsources : taintSources d = sources at h
  obtain ⟨sources, origins⟩ := sources
  cases h
  obtain ⟨functions, hfunctions, hgraph⟩ := except_of_bind_ok hgraph
  obtain ⟨comps, hcomps, hgraph⟩ := except_of_bind_ok hgraph
  obtain ⟨assigns, hassigns, hgraph⟩ := except_of_bind_ok hgraph
  obtain rfl : functions.flatten ++ comps.flatten ++ assigns.flatten = graph := Except.ok.inj hgraph
  generalize hgraph : functions.flatten ++ comps.flatten ++ assigns.flatten = graph
  have hperm := order.perm sources
  let start : Taint :=
    { worklist := (order.list sources).reverse, vars := sources.toFinset, functions := ∅, origins }
  have hfuel : start.worklist.length + start.unreached graph ≤ sources.length + graph.length := by
    have hedges := countP_le_length (p := fun edge => !decide (start.Reached edge.2)) (l := graph)
    have hlength : start.worklist.length = sources.length := by
      rw [length_reverse, hperm.length_eq]
    rw [hlength]
    exact Nat.add_le_add_left hedges _
  have hvisited : ∀ sym, start.Marked sym →
      sym ∈ start.worklist ∨ ∀ dep, (sym, dep) ∈ graph → start.Reached dep := by
    rintro sym (hsym | hsym)
    · left
      rwa [mem_reverse, hperm.mem_iff, ← mem_toFinset]
    · cases hsym
  obtain ⟨hle, hclosed⟩ := propagate_closed d.interner graph hfuel hvisited
  have hsource : ∀ sym, sym ∈ (taintSources d).1 →
      sym ∈ (propagate d.interner graph (sources.length + graph.length) start).vars := by
    intro sym hsym
    rw [hsources] at hsym
    exact hle.vars (mem_toFinset.mpr hsym)
  have hin : functions.flatten ⊆ graph ∧ comps.flatten ⊆ graph ∧ assigns.flatten ⊆ graph := by grind
  refine ⟨fun sym hsym => hsource sym (mem_taintSources (.inl hsym)), ?_, ?_, ?_, ?_⟩
  · intro method aliasSym payload pathParam targetVar format headers hmem sym hsym
    exact hsource sym (mem_taintSources (.inr ⟨method, aliasSym, payload, pathParam, targetVar, format, headers,
      hmem, hsym⟩))
  · intro f hf func hfunc hclean
    obtain ⟨edges, hmem, hedges⟩ := (except_mapM_mem hfunctions).2 f hf
    simp only [functionEdges, hfunc] at hedges
    exact untouched_of_edges hedges (List.Subset.trans (sublist_flatten_of_mem hmem).subset hin.1) hclosed hclean
  · intro cb hcb hclean
    obtain ⟨edges, hmem, hedges⟩ := (except_mapM_mem hcomps).2 cb hcb
    exact untouched_of_edges hedges (List.Subset.trans (sublist_flatten_of_mem hmem).subset hin.2.1) hclosed hclean
  · intro target expr hmem sym hsym hclean
    obtain ⟨edges, hedgesMem, hedges⟩ := (except_mapM_mem hassigns).2 _ hmem
    simp only [assignEdges, hsym] at hedges
    exact untouched_of_edges hedges (List.Subset.trans (sublist_flatten_of_mem hedgesMem).subset hin.2.2) hclosed hclean

end Document

end Mizu
