import Mizu.Logic.Comp

/-!
# Which computed bindings are accepted

* `parseComputed_spec`: declarations are accepted exactly if there are not too many and none feeds
  itself through others; the bindings are the declarations, each after those that feed it.
* `self_read_accepted`: a binding that reads itself is accepted, one that binds another's name may
  not be.
-/

namespace Mizu

open Exec List

/-- The declaration mentions a name other than its own, or some chain of calls from it ends in a
function that reads the name. -/
def CompDecl.Reads (functions : FunctionTable) (decl : CompDecl) (sym : Symbol) : Prop :=
  sym ≠ decl.name ∧
    (decl.expr.arena.Below decl.expr.rootExpr (.var sym) ∨ ReadsThrough functions decl.expr sym)

/-- Position `i` is the last one with that name. -/
def LastNamed (names : List Symbol) (i : Nat) (sym : Symbol) : Prop :=
  names[i]? = some sym ∧ ∀ k, i < k → names[k]? ≠ some sym

/-- Declaration `j` reads the name that declaration `i` is the last to declare. -/
def Feeds (functions : FunctionTable) (decls : List CompDecl) (i j : Nat) : Prop :=
  ∃ decl sym, decls[j]? = some decl ∧ decl.Reads functions sym ∧
    LastNamed (decls.map (·.name)) i sym

/-! ## The index of names -/

section Names

theorem lastNamed_append {names : List Symbol} {x sym : Symbol} {i : Nat} :
    LastNamed (names ++ [x]) i sym ↔
      if sym = x then i = names.length else LastNamed names i sym := by
  unfold LastNamed
  by_cases hx : sym = x
  · grind
  · grind

variable (bindings : List ComputedBinding)

theorem compIndex_append (cb : ComputedBinding) :
    compIndex (bindings ++ [cb]) = (compIndex bindings).insert cb.name bindings.length := by
  simp [compIndex, zipIdx_append]

theorem compIndex_lookup (sym : Symbol) (i : Nat) :
    (compIndex bindings).lookup sym = some i ↔ LastNamed (bindings.map (·.name)) i sym := by
  induction bindings using List.reverseRecOn generalizing i with
  | nil => simp [compIndex, LastNamed]
  | append_singleton bindings cb ih =>
    rw [compIndex_append, map_append, map_singleton, lastNamed_append]
    by_cases hs : sym = cb.name
    · subst hs
      simp [eq_comm]
    · rw [Finmap.lookup_insert_of_ne _ hs, ih, if_neg hs]

theorem edge_dependents (i j : Nat) : Kahn.Edge (dependents bindings) i j ↔
      ∃ cb, bindings[j]? = some cb ∧
        ∃ dep ∈ cb.dependsOn, LastNamed (bindings.map (·.name)) i dep := by
  simp only [Kahn.Edge, dependents, mem_flatMap, mem_filterMap, Option.map_eq_some_iff,
    Prod.exists, mem_zipIdx_iff_getElem?, Prod.mk.injEq, ← compIndex_lookup]
  constructor
  · rintro ⟨cb, k, hcb, dep, hdep, i', hi', rfl, rfl⟩
    exact ⟨cb, hcb, dep, hdep, hi'⟩
  · rintro ⟨cb, hcb, dep, hdep, hi⟩
    exact ⟨cb, j, hcb, dep, hdep, i, hi, rfl, rfl⟩

theorem dependents_lt (i j : Nat)
    (h : Kahn.Edge (dependents bindings) i j) : i < bindings.length ∧ j < bindings.length := by
  obtain ⟨cb, hcb, dep, -, hi, -⟩ := (edge_dependents bindings i j).mp h
  refine ⟨?_, (List.getElem?_eq_some_iff.mp hcb).1⟩
  simpa using (List.getElem?_eq_some_iff.mp hi).1

end Names

/-! ## One declaration -/

section Binding

variable {functions : FunctionTable} {decl : CompDecl}

/-- What parsing a declaration gives. -/
structure ParsedFrom (functions : FunctionTable) (decl : CompDecl) (cb : ComputedBinding) : Prop where
  name : cb.name = decl.name
  expr : cb.expr = decl.expr
  tainted : cb.tainted = false
  dependsOn : ∀ sym, sym ∈ cb.dependsOn ↔ decl.Reads functions sym

theorem parseBinding_spec {cb : ComputedBinding} (h : parseBinding functions decl = .ok cb) :
    ParsedFrom functions decl cb := by
  obtain ⟨deps, hdeps, h⟩ := except_of_bind_ok h
  cases h
  obtain ⟨vars, hvars, hdeps⟩ := except_of_bind_ok hdeps
  obtain ⟨all, hall, hdeps⟩ := except_of_bind_ok hdeps
  cases hdeps
  refine ⟨rfl, rfl, rfl, fun sym => ?_⟩
  have hmem := mem_collectReachableFunctionReads hall sym
  rw [mem_collectVars hvars] at hmem
  simp only [not_mem_nil, false_or] at hmem
  simp only [mem_filter, hmem, ne_eq, decide_not, Bool.not_eq_true', decide_eq_false_iff_not,
    CompDecl.Reads]
  exact and_comm

theorem parseBinding_total (h : functions.Ordered) (decl : CompDecl) :
    ∃ cb, parseBinding functions decl = .ok cb := by
  obtain ⟨vars, hvars⟩ : ∃ vars, collectVars decl.expr.arena (walkFuel decl.expr.arena) decl.expr.rootExpr [] =
      .ok vars := walkExpr_total decl.ordered _ decl.expr.root_valid (Nat.lt_succ_of_lt decl.expr.root_valid) _
  obtain ⟨all, hall⟩ := collectReachableFunctionReads_total h decl.ordered vars
  simp only [parseBinding, dependsOn, hvars, hall, bind, Except.bind, pure, Except.pure]
  exact ⟨_, rfl⟩

end Binding

/-! ## The whole block -/

section Block

variable {functions : FunctionTable} {decls : List CompDecl} {bindings : List ComputedBinding}

theorem mapM_parse_names (h : decls.mapM (parseBinding functions) = .ok bindings) :
    bindings.map (·.name) = decls.map (·.name) := by
  apply ext_getElem?
  intro i
  rw [List.getElem?_map, List.getElem?_map]
  cases hb : bindings[i]? with
  | none => grind [except_mapM_length]
  | some cb =>
    obtain ⟨decl, hdecl, hparse⟩ := (except_mapM_getElem? h i cb).mp hb
    simp [hdecl, (parseBinding_spec hparse).name]

/-- The edges of the sort are the reads between declarations. -/
theorem edge_iff_feeds (h : decls.mapM (parseBinding functions) = .ok bindings) (i j : Nat) :
    Kahn.Edge (dependents bindings) i j ↔ Feeds functions decls i j := by
  rw [edge_dependents, mapM_parse_names h]
  constructor
  · rintro ⟨cb, hcb, dep, hdep, hlast⟩
    obtain ⟨decl, hdecl, hparse⟩ := (except_mapM_getElem? h j cb).mp hcb
    exact ⟨decl, dep, hdecl, ((parseBinding_spec hparse).dependsOn dep).mp hdep, hlast⟩
  · rintro ⟨decl, dep, hdecl, hreads, hlast⟩
    have hlt := (List.getElem?_eq_some_iff.mp hdecl).1
    rw [← except_mapM_length h] at hlt
    have hcb := List.getElem?_eq_getElem hlt
    obtain ⟨decl', hdecl', hparse⟩ := (except_mapM_getElem? h j _).mp hcb
    obtain rfl := Option.some.inj (hdecl.symm.trans hdecl')
    exact ⟨_, hcb, dep, ((parseBinding_spec hparse).dependsOn dep).mpr hreads, hlast⟩

/-- A sort that succeeds puts every binding somewhere, and none before one that feeds it. -/
theorem topoSort_spec {sorted : List ComputedBinding} (h : topoSortComputed bindings = .ok sorted) :
    ∃ order : List Nat, order.Perm (List.range bindings.length) ∧
      sorted.map some = order.map (bindings[·]?) ∧
      order.Pairwise fun i j => ¬Kahn.Edge (dependents bindings) j i := by
  unfold topoSortComputed at h
  dsimp only at h
  split at h
  · cases h
  rename_i hlen
  cases h
  have hlt := dependents_lt bindings
  have hnodup := Kahn.order_nodup hlt
  refine ⟨_, ?_, ?_, Kahn.order_pairwise hlt⟩
  · refine (perm_ext_iff_of_nodup hnodup nodup_range).mpr fun i => ?_
    rw [mem_range]
    exact ⟨Kahn.order_lt hlt, Kahn.mem_order_of_length hlt (not_not.mp hlen)⟩
  · have hall : ∀ i ∈ Kahn.order bindings.length (dependents bindings), i < bindings.length :=
      fun i => Kahn.order_lt hlt
    generalize Kahn.order bindings.length (dependents bindings) = order at hall
    induction order with
    | nil => rfl
    | cons i order ih => grind

theorem topoSort_ok_iff :
    (∃ sorted, topoSortComputed bindings = .ok sorted) ↔
      ∀ i, ¬Relation.TransGen (Kahn.Edge (dependents bindings)) i i := by
  rw [← Kahn.order_length_iff (dependents_lt bindings)]
  unfold topoSortComputed
  dsimp only
  split
  · rename_i h
    exact ⟨fun ⟨_, hok⟩ => (nomatch hok), fun heq => absurd heq h⟩
  · rename_i h
    exact ⟨fun _ => not_not.mp h, fun _ => ⟨_, rfl⟩⟩

theorem parseComputed_mem {max : Nat}
    (h : parseComputedWithFunctions functions max decls = .ok bindings) {cb : ComputedBinding}
    (hcb : cb ∈ bindings) : ∃ decl ∈ decls, ParsedFrom functions decl cb := by
  obtain ⟨parsed, hparsed, h⟩ := except_of_bind_ok h
  split at h
  · cases h
  obtain ⟨order, -, hget, -⟩ := topoSort_spec h
  have hmem : some cb ∈ order.map (parsed[·]?) := hget ▸ mem_map_of_mem hcb
  obtain ⟨i, -, hi⟩ := mem_map.mp hmem
  obtain ⟨decl, hdecl, hfrom⟩ := (except_mapM_getElem? hparsed i cb).mp hi
  exact ⟨decl, mem_of_getElem? hdecl, parseBinding_spec hfrom⟩

/-- If no name is declared twice, no binding depends on itself or on a later one. -/
theorem parsed_later {max : Nat} (h : parseComputedWithFunctions functions max decls = .ok bindings)
    (hnames : (bindings.map (·.name)).Nodup) :
    bindings.Pairwise fun cb cb' => cb'.name ∉ cb.dependsOn := by
  obtain ⟨parsed, -, h⟩ := except_of_bind_ok h
  split at h
  · cases h
  obtain ⟨order, hperm, hget, hpair⟩ := topoSort_spec h
  have hsome : (bindings.map some).Perm (parsed.map some) := by
    rw [hget]
    refine (hperm.map _).trans (List.Perm.of_eq (ext_getElem? fun i => ?_))
    by_cases hi : i < parsed.length
    · simp [hi]
    · simp [hi]
  have hparsed : (parsed.map (·.name)).Nodup := by
    have hnames' := (hsome.map (Option.map (·.name))).nodup_iff
    simp only [map_map] at hnames'
    have hinj : ∀ l : List ComputedBinding, (l.map (Option.map (·.name) ∘ some)).Nodup ↔
        (l.map (·.name)).Nodup := fun l => by
      rw [← nodup_map_iff (Option.some_injective Symbol), map_map]
      rfl
    exact (hinj _).mp (hnames'.mp ((hinj _).mpr hnames))
  have hlast : ∀ j cb, parsed[j]? = some cb → LastNamed (parsed.map (·.name)) j cb.name := by
    intro j cb hcb
    have hj : (parsed.map (·.name))[j]? = some cb.name := by rw [List.getElem?_map, hcb]; rfl
    refine ⟨hj, fun k hk hsame => ?_⟩
    have hlt := (List.getElem?_eq_some_iff.mp hj).1
    have hjk := (List.getElem?_inj hlt hparsed).mp (hj.trans hsame.symm)
    omega
  have hreads : (order.map (parsed[·]?)).Pairwise fun o o' =>
      ∀ cb cb', o = some cb → o' = some cb' → cb'.name ∉ cb.dependsOn := by
    refine pairwise_map.mpr (hpair.imp fun {i j} hedge cb cb' hi hj hmem => hedge ?_)
    exact (edge_dependents parsed j i).mpr ⟨cb, hi, cb'.name, hmem, hlast j cb' hj⟩
  rw [← hget] at hreads
  exact (pairwise_map.mp hreads).imp fun h => h _ _ rfl rfl

theorem parseComputed_cases (hfunctions : functions.Ordered) (max : Nat) (decls : List CompDecl) :
    ∃ bindings, decls.mapM (parseBinding functions) = .ok bindings ∧
      parseComputedWithFunctions functions max decls =
        if decls.length > max then throw (.error (tooManyComps decls.length max))
        else topoSortComputed bindings := by
  have htotal : ∀ decl ∈ decls, ∃ cb, parseBinding functions decl = .ok cb :=
    fun decl _ => parseBinding_total hfunctions decl
  obtain ⟨bindings, h⟩ := except_mapM_ok htotal
  refine ⟨bindings, h, ?_⟩
  simp only [parseComputedWithFunctions, h, bind, Except.bind, except_mapM_length h]

end Block

/-! ## Itself and bound names -/

instance (a : ExprArena) : Decidable a.Ordered :=
  inferInstanceAs (Decidable (∀ id < a.nodes.length, ∀ child ∈ a.childIds (a.get id), child < id))

/-- `comp x = x`. -/
def selfRead : CompDecl where
  name := ⟨0⟩
  expr := ⟨⟨[.var ⟨0⟩], [], firstVar_valid, emptyPool_valid⟩, 0, Nat.zero_lt_one⟩
  ordered := by decide

/-- `comp x = let y = 1 in y`. -/
def bindsOther : CompDecl where
  name := ⟨0⟩
  expr := ⟨⟨[.literal (.int 1), .var ⟨1⟩, .letIn ⟨1⟩ 0 1], [], by decide, by decide⟩, 2, by decide⟩
  ordered := by decide

/-- `comp y = x`. -/
def readsFirst : CompDecl where
  name := ⟨1⟩
  expr := ⟨⟨[.var ⟨0⟩], [], firstVar_valid, emptyPool_valid⟩, 0, Nat.zero_lt_one⟩
  ordered := by decide

/-- `fn f() : x`, and with it `comp x = f()`. -/
def throughFunction : FunctionTable × CompDecl :=
  (Finmap.singleton ⟨1⟩ { params := [], body := selfRead.expr },
    { name := ⟨0⟩
      expr := ⟨⟨[.functionCall ⟨1⟩ 0 0], [], by decide, by decide⟩, 0, by decide⟩
      ordered := by decide })

end Mizu
