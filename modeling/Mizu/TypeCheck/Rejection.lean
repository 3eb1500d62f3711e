import Mizu.TypeCheck.Soundness

/-!
# What the type checker promises

* `infer_rejects`: `infer` fails only at an operation that fails on some value of the type inferred
  for its operand, or at a call of a declared function with the wrong number of arguments.
* `check_types_sound`: an expression with an inferred type evaluates to a value of it, except for
  joined strings, and a document is rejected only for such an operation or a payload whose type
  does not suit its format.
* `checker_and_evaluator_disagree`: both halves fail without their exceptions.
-/

namespace Mizu

open Exec List

/-! ## A value of every type -/

namespace ValueType

mutual

def default : ValueType → Value
  | num => .int 0
  | str => .string ""
  | bool => .bool false
  | list _ => .list []
  | record fields => .record (defaultFields fields)
  | nullable _ => .null

def defaultFields : List (String × ValueType) → List (RecordField Value)
  | [] => []
  | (name, ty) :: fs => ⟨name, hashField name, ty.default⟩ :: defaultFields fs

end

mutual

/-- Record fields strictly ordered by name, at every depth. -/
def Ordered : ValueType → Prop
  | list inner => inner.Ordered
  | record fields => fields.Pairwise (fun f g => f.1 < g.1) ∧ OrderedFields fields
  | nullable inner => inner.Ordered
  | _ => True

def OrderedFields : List (String × ValueType) → Prop
  | [] => True
  | (_, ty) :: fs => ty.Ordered ∧ OrderedFields fs

end

mutual

theorem accepts_default : ∀ T : ValueType, T.accepts T.default = true
  | num => rfl
  | str => rfl
  | bool => rfl
  | list _ => rfl
  | record fields => by
    simp only [default, accepts]
    exact accepts_defaultFields fields
  | nullable _ => rfl

theorem accepts_defaultFields :
    ∀ fields : List (String × ValueType), acceptsFields fields (defaultFields fields) = true
  | [] => rfl
  | (name, ty) :: fs => by
    simp only [defaultFields, acceptsFields, decide_true, Bool.true_and, Bool.and_eq_true]
    exact ⟨accepts_default ty, accepts_defaultFields fs⟩

end

variable {fields : List (String × ValueType)}

theorem mem_defaultFields {f : RecordField Value}
    (h : f ∈ defaultFields fields) : ∃ e ∈ fields, f = ⟨e.1, hashField e.1, e.2.default⟩ := by
  induction fields with
  | nil => simp [defaultFields] at h
  | cons e fields ih =>
    rcases mem_cons.mp h with rfl | h
    · exact ⟨e, mem_cons_self, rfl⟩
    · obtain ⟨e', he', hf⟩ := ih h
      exact ⟨e', mem_cons_of_mem _ he', hf⟩

theorem defaultFields_pairwise (h : fields.Pairwise fun f g => f.1 < g.1) :
    (defaultFields fields).Pairwise fun f g => f.key < g.key := by
  induction fields with
  | nil => exact List.Pairwise.nil
  | cons e fields ih =>
    rw [pairwise_cons] at h
    refine pairwise_cons.mpr ⟨fun f hf => ?_, ih h.2⟩
    obtain ⟨e', he', rfl⟩ := mem_defaultFields hf
    exact h.1 e' he'

mutual

theorem wellFormed_default : ∀ T : ValueType, T.Ordered → T.default.WellFormed
  | num, _ => trivial
  | str, _ => trivial
  | bool, _ => trivial
  | list _, _ => trivial
  | record fields, h => by
    simp only [Ordered] at h
    refine ⟨defaultFields_pairwise h.1, fun f hf => ?_, wellFormed_defaultFields fields h.2⟩
    obtain ⟨e, -, rfl⟩ := mem_defaultFields hf
    rfl
  | nullable _, _ => trivial

theorem wellFormed_defaultFields : ∀ fields : List (String × ValueType), OrderedFields fields →
    Value.WellFormedFields (defaultFields fields)
  | [], _ => trivial
  | (_, ty) :: fs, h => ⟨wellFormed_default ty h.1, wellFormed_defaultFields fs h.2⟩

end

/-- A value that passes the check for the type, well formed if the type's own fields are. -/
def Admits (T : ValueType) (v : Value) : Prop :=
  T.accepts v = true ∧ (T.Ordered → v.WellFormed)

theorem admits_default (T : ValueType) : T.Admits T.default :=
  ⟨accepts_default T, wellFormed_default T⟩

end ValueType

/-! ## Where `infer` fails -/

/-- An expression with the types in scope. -/
structure Point where
  env : Env
  arena : ExprArena
  expr : Expr

section Rejects

variable (ctx : EvalCtx)

/-- The type `infer` gives the expression. -/
def Point.HasType (p : Point) (ty : Option ValueType) : Prop :=
  ∃ fuel, infer ctx.interner ctx.functions fuel p.env p.arena p.expr = .ok ty

/-- The points `infer` visits next from a point. -/
inductive Visits : Point → Point → Prop where
  | binaryLeft {env a l op r} : Visits ⟨env, a, .binaryOp l op r⟩ ⟨env, a, a.get l⟩
  | binaryRight {env a l op r} : Visits ⟨env, a, .binaryOp l op r⟩ ⟨env, a, a.get r⟩
  | letValue {env a x v b} : Visits ⟨env, a, .letIn x v b⟩ ⟨env, a, a.get v⟩
  | letBody {env a x v b ty} (hty : Point.HasType ctx ⟨env, a, a.get v⟩ ty) :
      Visits ⟨env, a, .letIn x v b⟩ ⟨env.insert x ty, a, a.get b⟩
  | notInner {env a e} : Visits ⟨env, a, .not e⟩ ⟨env, a, a.get e⟩
  | condition {env a c t e} : Visits ⟨env, a, .ifElse c t e⟩ ⟨env, a, a.get c⟩
  | thenBranch {env a c t e} : Visits ⟨env, a, .ifElse c t e⟩ ⟨env, a, a.get t⟩
  | elseBranch {env a c t e} : Visits ⟨env, a, .ifElse c t e⟩ ⟨env, a, a.get e⟩
  | fieldBase {env a b f h} : Visits ⟨env, a, .fieldAccess b f h⟩ ⟨env, a, a.get b⟩
  | callArg {env a f st len e} (he : e ∈ a.args st len) :
      Visits ⟨env, a, .functionCall f st len⟩ ⟨env, a, e⟩

/-- An operation that fails on some value of the type inferred for its operand, whatever the other
operands and the state are; or a call with the wrong number of arguments. -/
inductive Clash : Point → Prop where
  | field {env a b f h T v} (hty : Point.HasType ctx ⟨env, a, a.get b⟩ (some T)) (hv : T.Admits v)
      (hfail : ∀ n, ∃ err m, accessField ctx f h v n = .error err m) :
      Clash ⟨env, a, .fieldAccess b f h⟩
  | builtin {env a f st len p e es T v} (hargs : a.args st len = e :: es)
      (hname : PureBuiltin.ofCall ((ctx.interner.resolve f).getD "") (a.args st len).length = some p)
      (hty : Point.HasType ctx ⟨env, a, e⟩ (some T)) (hv : T.Admits v)
      (hfail : ∀ max vs n, ∃ err m, p.apply ctx.arcEq max (v :: vs) n = .error err m) :
      Clash ⟨env, a, .functionCall f st len⟩
  | arity {env a f st len func} (hfunc : ctx.functions.lookup f = some func)
      (harity : (a.args st len).length ≠ func.params.length) :
      Clash ⟨env, a, .functionCall f st len⟩

/-- The walk from the point meets a clash. -/
def Rejects (p : Point) : Prop :=
  ∃ q, Relation.ReflTransGen (Visits ctx) p q ∧ Clash ctx q

variable {ctx}

theorem Rejects.head {p q : Point} (h : Visits ctx p q) (h' : Rejects ctx q) : Rejects ctx p := by
  obtain ⟨r, hpath, hclash⟩ := h'
  exact ⟨r, .head h hpath, hclash⟩

theorem Clash.rejects {p : Point} (h : Clash ctx p) : Rejects ctx p := ⟨p, .refl, h⟩

variable {err : MizuError}

/-- A field that a type does not have is missing in its default value. -/
theorem accessField_default {f : Symbol} {hash : UInt32} {T : ValueType}
    (h : inferField ((ctx.interner.resolve f).getD "") (some T) = .error (.error err)) (n : Nat) :
    ∃ err m, accessField ctx f hash T.default n = .error err m := by
  cases T with
  | record types =>
    simp only [inferField] at h
    split at h
    · cases h
    · rename_i hnone
      have hmissing : (ValueType.record types).default.getField hash
          ((ctx.interner.resolve f).getD "") = none := by
        simp only [ValueType.default, Value.getField, Option.map_eq_none_iff, List.find?_eq_none]
        intro g hg
        obtain ⟨e, he, rfl⟩ := ValueType.mem_defaultFields hg
        have := List.find?_eq_none.mp hnone e he
        simp_all
      simp only [accessField, ValueType.default] at hmissing ⊢
      rw [hmissing]
      exact ⟨_, _, rfl⟩
  | _ => exact ⟨_, _, rfl⟩

/-- A builtin that refuses a type fails on its default value. -/
theorem apply_default {p : PureBuiltin} {T : ValueType}
    (h : p.inferResult (some T) = .error (.error err)) (arc : ArcEq) (max : Nat) (vs : List Value)
    (n : Nat) : ∃ err m, p.apply arc max (T.default :: vs) n = .error err m := by
  generalize hws : T.default :: vs = ws
  unfold PureBuiltin.apply
  split <;> cases hws <;> cases T <;> first | exact ⟨_, _, rfl⟩ | cases h

/-- A failing list of arguments has a failing argument. -/
theorem inferArgs_error {walk : Expr → Walk (Option ValueType)} {es : List Expr} {err : WalkError}
    (h : inferArgs walk es = .error err) : ∃ e ∈ es, walk e = .error err := by
  induction es with
  | nil => cases h
  | cons e es ih =>
    rcases except_of_bind_error h with he | ⟨ty, -, h⟩
    · exact ⟨e, mem_cons_self, he⟩
    · rcases except_of_bind_error h with hes | ⟨tys, -, h⟩
      · grind
      · cases h

/-- The builtins refuse only a first argument whose type is known. -/
theorem inferResult_error {p : PureBuiltin} {ty : Option ValueType} {err : WalkError}
    (h : p.inferResult ty = .error err) : ∃ T err', ty = some T ∧ err = .error err' := by
  cases ty with
  | none => cases p <;> cases h
  | some T =>
    unfold PureBuiltin.inferResult at h
    split at h <;> cases h <;> exact ⟨_, _, rfl, rfl⟩

theorem inferField_error {name : String} {ty : Option ValueType} {err : WalkError}
    (h : inferField name ty = .error err) : ∃ T err', ty = some T ∧ err = .error err' := by
  cases ty with
  | none => cases h
  | some T =>
    cases T with
    | record fields =>
      simp only [inferField] at h
      split at h <;> cases h
      exact ⟨_, _, rfl, rfl⟩
    | _ => cases h; exact ⟨_, _, rfl, rfl⟩

/-- A rejected call: a rejected argument, a clash of the builtin with its first argument, or a wrong
number of arguments. -/
theorem call_rejects {fuel : Nat} {env : Env} {a : ExprArena} {f : Symbol} {st len : Nat}
    (ih : ∀ e, infer ctx.interner ctx.functions fuel env a e = .error (.error err) →
      Rejects ctx ⟨env, a, e⟩)
    (h : infer ctx.interner ctx.functions (fuel + 1) env a (.functionCall f st len) =
      .error (.error err)) : Rejects ctx ⟨env, a, .functionCall f st len⟩ := by
  have hargs : inferArgs (infer ctx.interner ctx.functions fuel env a) (a.args st len) =
      .error (.error err) → Rejects ctx ⟨env, a, .functionCall f st len⟩ := by
    intro h
    obtain ⟨e, he, hwalk⟩ := inferArgs_error h
    exact (ih e hwalk).head (.callArg he)
  simp only [infer] at h
  split at h
  · rename_i p hp
    rcases except_of_bind_error h with h | ⟨tys, htys, h⟩
    · exact hargs h
    obtain ⟨T, -, hhead, -⟩ := inferResult_error h
    cases hcall : a.args st len with
    | nil =>
      rw [hcall] at htys
      cases htys
      cases hhead
    | cons e es =>
      rw [hcall] at htys
      obtain ⟨ty, hty, htys⟩ := except_of_bind_ok htys
      obtain ⟨rest, -, htys⟩ := except_of_bind_ok htys
      cases htys
      simp only [headD_cons] at hhead h
      subst hhead
      exact (Clash.builtin hcall hp ⟨fuel, hty⟩ T.admits_default
        fun max vs n => apply_default h ctx.arcEq max vs n).rejects
  · split at h
    · rename_i func hfunc
      split at h
      · rename_i harity
        exact (Clash.arity hfunc harity).rejects
      · rcases except_of_bind_error h with h | ⟨_, -, h⟩
        · exact hargs h
        · cases h
    · rcases except_of_bind_error h with h | ⟨_, -, h⟩
      · exact hargs h
      · cases h

/-- `infer` reports an error only where an operation clashes with the type of its operand. -/
theorem infer_rejects {fuel : Nat} {env : Env} {a : ExprArena} {e : Expr}
    (h : infer ctx.interner ctx.functions fuel env a e = .error (.error err)) :
    Rejects ctx ⟨env, a, e⟩ := by
  induction fuel generalizing env e with
  | zero => cases h
  | succ fuel ih =>
    cases e with
    | literal v => cases h
    | var sym => cases h
    | binaryOp l op r =>
      rcases except_of_bind_error h with hl | ⟨_, -, h⟩
      · exact (ih hl).head .binaryLeft
      · rcases except_of_bind_error h with hr | ⟨_, -, h⟩
        · exact (ih hr).head .binaryRight
        · cases h
    | functionCall f st len => exact call_rejects (fun e he => ih he) h
    | letIn x v b =>
      rcases except_of_bind_error h with hv | ⟨ty, hty, hb⟩
      · exact (ih hv).head .letValue
      · exact (ih hb).head (.letBody ⟨fuel, hty⟩)
    | not e =>
      rcases except_of_bind_error h with he | ⟨_, -, h⟩
      · exact (ih he).head .notInner
      · cases h
    | ifElse c t e =>
      rcases except_of_bind_error h with hc | ⟨_, -, h⟩
      · exact (ih hc).head .condition
      rcases except_of_bind_error h with ht | ⟨_, -, h⟩
      · exact (ih ht).head .thenBranch
      rcases except_of_bind_error h with he | ⟨_, -, h⟩
      · exact (ih he).head .elseBranch
      · cases h
    | fieldAccess b f hash =>
      rcases except_of_bind_error h with hb | ⟨ty, hty, h⟩
      · exact (ih hb).head .fieldBase
      · obtain ⟨T, -, rfl, -⟩ := inferField_error h
        exact (Clash.field ⟨fuel, hty⟩ T.admits_default fun n => accessField_default h n).rejects

end Rejects

/-! ## The document -/

section Document

variable (d : Document)

/-- The types of the computed bindings. -/
def Document.HasGlobals (env : Env) : Prop :=
  globalEnv d.interner d.functions ∅ d.comps = .ok env

/-- The expressions `check_types` walks, each with the types in scope. -/
inductive Root : Env → ExprTree → Prop where
  | comp {pre comp post env} (hcomps : d.comps = pre ++ comp :: post)
      (henv : globalEnv d.interner d.functions ∅ pre = .ok env) : Root env comp.expr
  | body {env name func} (henv : d.HasGlobals env) (hfunc : d.functions.lookup name = some func) :
      Root (functionEnv env func.params) func.body
  | action {env action t} (henv : d.HasGlobals env) (haction : action ∈ d.actions)
      (ht : t ∈ action.trees) : Root env t

/-- A network call whose payload has a type that does not suit its format. -/
def PayloadClash : Prop :=
  ∃ env method aliasSym p pathParam targetVar format headers ty err, d.HasGlobals env ∧
    .networkCall method aliasSym (some p) pathParam targetVar format headers ∈ d.actions ∧
    inferTree d.interner d.functions env p = .ok ty ∧
    checkPayloadFormatShape format ty = .error (.error err)

/-- Some expression the checker walks meets a clash, or a payload does not suit its format. -/
def Document.Clashes (arc : ArcEq) : Prop :=
  (∃ env t, Root d env t ∧ Rejects ⟨d.functions, d.interner, arc⟩ ⟨env, t.arena, t.rootExpr⟩) ∨
    PayloadClash d

variable {d} {arc : ArcEq} {env : Env} {err : MizuError}

theorem Root.clashes {t : ExprTree} (hroot : Root d env t)
    (h : inferTree d.interner d.functions env t = .error (.error err)) : d.Clashes arc :=
  .inl ⟨env, t, hroot, infer_rejects h⟩

theorem globalEnv_append {interner : Interner} {functions : FunctionTable} {env : Env}
    (pre post : List ComputedBinding) :
    globalEnv interner functions env (pre ++ post) =
      globalEnv interner functions env pre >>= fun env => globalEnv interner functions env post := by
  induction pre generalizing env with
  | nil => rfl
  | cons comp pre ih =>
    simp only [cons_append, globalEnv, bind_assoc, ih]

theorem globalEnv_rejects (pre : List ComputedBinding) {post : List ComputedBinding}
    (hcomps : d.comps = pre ++ post)
    (henv : globalEnv d.interner d.functions ∅ pre = .ok env)
    (h : globalEnv d.interner d.functions env post = .error (.error err)) : d.Clashes arc := by
  induction post generalizing pre env with
  | nil => cases h
  | cons comp post ih =>
    rcases except_of_bind_error h with he | ⟨ty, hty, h⟩
    · exact (Root.comp hcomps henv).clashes he
    · refine ih (pre ++ [comp]) (by rw [hcomps, append_assoc]; rfl) ?_ h
      rw [globalEnv_append, henv]
      show (do let ty ← inferTree d.interner d.functions env comp.expr
               globalEnv d.interner d.functions (env.insert comp.name ty) []) = _
      rw [hty]
      rfl

theorem checkFunctions_rejects (henv : d.HasGlobals env) {names : List Symbol}
    (h : checkFunctions d.interner d.functions env names = .error (.error err)) :
    d.Clashes arc := by
  induction names with
  | nil => cases h
  | cons name names ih =>
    unfold checkFunctions at h
    cases hfunc : d.functions.lookup name with
    | none =>
      simp only [hfunc] at h
      exact ih h
    | some func =>
      simp only [hfunc] at h
      rcases except_of_bind_error h with hbody | ⟨_, -, h⟩
      · exact (Root.body henv hfunc).clashes hbody
      · exact ih h

theorem checkOptional_rejects {o : Option ExprTree} (hroot : ∀ t ∈ o, Root d env t)
    (h : checkOptional d.interner d.functions env o = .error (.error err)) : d.Clashes arc := by
  cases o with
  | none => cases h
  | some t =>
    rcases except_of_bind_error h with ht | ⟨_, -, h⟩
    · exact (hroot t rfl).clashes ht
    · cases h

theorem checkHeaders_rejects {headers : List (String × ExprTree)}
    (hroot : ∀ h ∈ headers, Root d env h.2)
    (h : checkHeaders d.interner d.functions env headers = .error (.error err)) :
    d.Clashes arc := by
  induction headers with
  | nil => cases h
  | cons header headers ih =>
    rcases except_of_bind_error h with ht | ⟨_, -, h⟩
    · exact (hroot header mem_cons_self).clashes ht
    · exact ih (fun t ht => hroot t (mem_cons_of_mem _ ht)) h

theorem checkAction_rejects {action : Action} (henv : d.HasGlobals env)
    (haction : action ∈ d.actions)
    (h : checkAction d.interner d.functions env action = .error (.error err)) :
    d.Clashes arc := by
  have hroot : ∀ t ∈ action.trees, Root d env t := fun t ht => .action henv haction ht
  have single : ∀ t ∈ action.trees, ∀ f : Option ValueType → Walk Unit,
      (∀ ty, f ty ≠ .error (.error err)) →
      inferTree d.interner d.functions env t >>= f = .error (.error err) → d.Clashes arc := by
    intro t ht f hf h
    rcases except_of_bind_error h with h | ⟨ty, -, h⟩
    · exact (hroot t ht).clashes h
    · exact absurd h (hf ty)
  cases action with
  | eval e => exact single e mem_cons_self _ (fun _ h => by cases h) h
  | assign target e => exact single e mem_cons_self _ (fun _ h => by cases h) h
  | navigate e => exact single e mem_cons_self _ (fun _ h => by cases h) h
  | networkCall method aliasSym payload pathParam targetVar format headers =>
    simp only [Action.trees, mem_append, Option.mem_toList, mem_map] at hroot
    have hrest : (do
        checkOptional d.interner d.functions env pathParam
        checkHeaders d.interner d.functions env headers) = .error (.error err) → d.Clashes arc := by
      intro h
      rcases except_of_bind_error h with hp | ⟨_, -, h⟩
      · exact checkOptional_rejects (fun t ht => hroot t (.inl (.inr ht))) hp
      · exact checkHeaders_rejects (fun t ht => hroot t.2 (.inr ⟨t, ht, rfl⟩)) h
    cases payload with
    | none => exact hrest h
    | some p =>
      rcases except_of_bind_error h with hp | ⟨ty, hty, h⟩
      · exact (hroot p (.inl (.inl rfl))).clashes hp
      rcases except_of_bind_error h with hshape | ⟨_, -, h⟩
      · exact .inr ⟨env, method, aliasSym, p, pathParam, targetVar, format, headers, ty, err, henv,
          haction, hty, hshape⟩
      · exact hrest h

theorem checkActions_rejects {actions : List Action} (henv : d.HasGlobals env)
    (hactions : ∀ a ∈ actions, a ∈ d.actions)
    (h : checkActions d.interner d.functions env actions = .error (.error err)) :
    d.Clashes arc := by
  induction actions with
  | nil => cases h
  | cons action actions ih =>
    rcases except_of_bind_error h with ha | ⟨_, -, h⟩
    · exact checkAction_rejects henv (hactions action mem_cons_self) ha
    · exact ih (fun a ha => hactions a (mem_cons_of_mem _ ha)) h

/-- A rejected document has a clash. -/
theorem checkTypes_rejects (h : checkTypes d = .error (.error err)) : d.Clashes arc := by
  rcases except_of_bind_error h with hg | ⟨env, henv, h⟩
  · exact globalEnv_rejects [] rfl rfl hg
  rcases except_of_bind_error h with hf | ⟨_, -, h⟩
  · exact checkFunctions_rejects henv hf
  rcases except_of_bind_error h with he | ⟨_, -, h⟩
  · exact checkActions_rejects henv (fun a ha => mem_append_left _ ha) he
  · exact checkActions_rejects henv (fun a ha => mem_append_right _ ha) h

end Document

/-- What a passed and a failed type check say about evaluation: a value of the inferred type, unless
that is the number type and the evaluation joined strings; a clash in the document. -/
theorem check_types_sound (d : Document) (arc : ArcEq) :
    (∀ (site : Site) (fuel : Nat) (env : Env) (T : ValueType) (v : Value) (s' : Evaluator),
      Typed False env site.framePointer site.state →
      infer d.interner d.functions fuel env site.arena site.expr = .ok (some T) →
      site.run ⟨d.functions, d.interner, arc⟩ = .ok v s' →
      checkType v T = .ok () ∨ T = .num ∧ Joins ⟨d.functions, d.interner, arc⟩ site) ∧
    ∀ err, checkTypes d = .error (.error err) → d.Clashes arc := by
  refine ⟨fun site fuel env T v s' hty hinf hrun => ?_, fun err h => checkTypes_rejects h⟩
  rcases evaluate_fits ⟨d.functions, d.interner, arc⟩ site hty hinf hrun with hv | ⟨hjoins, hT, -⟩
  · left
    unfold checkType
    rw [if_pos hv.accepted]
  · exact .inr ⟨hT, hjoins.resolve_left id⟩

/-! ## The exceptions -/

/-- The document whose only action evaluates `"a" + "b"`. -/
def joiningTree : ExprTree where
  arena :=
    { nodes := [.literal (.string "a"), .literal (.string "b"), .binaryOp 0 .add 1]
      argsPool := []
      nodes_valid := by decide
      pool_valid := by decide }
  root := 2
  root_valid := by decide

def joiningDocument : Document where
  dom := [⟨0, [.click (.eval joiningTree)]⟩]
  timers := []
  functions := ∅
  functionOrder := []
  comps := []
  interner := .new

/-- `if true then 1 else length(1)`. -/
def guardedTree : ExprTree where
  arena :=
    { nodes := [.literal (.bool true), .literal (.int 1), .functionCall ⟨0⟩ 0 1, .ifElse 0 1 2]
      argsPool := [1]
      nodes_valid := by decide
      pool_valid := by decide }
  root := 3
  root_valid := by decide

def guardedInterner : Interner := .ofNames ["length"]

theorem typed_empty (fp : Nat) (s : Evaluator) (h : fp ≤ s.locals.stack.length) :
    Typed False ∅ fp s :=
  ⟨h, fun sym T v hT _ => by simp at hT⟩

/-- A conditional on `true` evaluates only its first branch. -/
theorem evaluate_ifTrue (ctx : EvalCtx) (fp : Nat) {a : ExprArena} {c t e : ExprId} {v : Value}
    (hc : a.get c = .literal (.bool true)) (ht : a.get t = .literal v) {s : Evaluator}
    (hcount : s.instructionCount + 3 ≤ s.maxInstructions) (hdepth : s.evalDepth + 2 ≤ maxEvalDepth) :
    evaluate ctx fp a (.ifElse c t e) s =
      .ok v { s with instructionCount := s.instructionCount + 3 } := by
  rw [evaluate_of_enter_ok (enter_of_room (by omega) (by omega))]
  unfold onExit
  simp only [evaluateImpl, hc]
  rw [bind_ok (evaluate_literal fp a _ (by simp only; omega) (by simp only; omega))]
  simp only [ht]
  rw [evaluate_literal fp a _ (by simp only; omega) (by simp only; omega)]
  rfl

/-- Without the exception for joined strings a value may miss its inferred type; and an expression
that evaluates in every state with room for it is rejected for a branch it never takes. -/
theorem checker_and_evaluator_disagree :
    (¬∀ (d : Document) (arc : ArcEq), checkTypes d = .ok () →
      ∀ (site : Site) (fuel : Nat) (env : Env) (T : ValueType) (v : Value) (s' : Evaluator),
        Typed False env site.framePointer site.state →
        infer d.interner d.functions fuel env site.arena site.expr = .ok (some T) →
        site.run ⟨d.functions, d.interner, arc⟩ = .ok v s' → checkType v T = .ok ()) ∧
    ¬∀ (ctx : EvalCtx) (env : Env) (t : ExprTree),
      (∀ s : Evaluator, Typed False env 0 s → s.instructionCount + 100 ≤ s.maxInstructions →
        s.evalDepth + 100 ≤ maxEvalDepth →
        ∃ v s', evaluate ctx 0 t.arena t.rootExpr s = .ok v s') →
      ∀ err, inferTree ctx.interner ctx.functions env t ≠ .error (.error err) := by
  constructor
  · intro h
    have hstr := h joiningDocument ⟨fun _ _ => false, fun h => nomatch h⟩ (by decide)
      ⟨0, joiningTree.arena, joiningTree.rootExpr, .new 20000⟩ 4 ∅ .num (.string "ab") _
      (typed_empty _ _ (by decide)) rfl rfl
    cases hstr
  · intro h
    refine h ⟨∅, guardedInterner, ⟨fun _ _ => false, fun h => nomatch h⟩⟩ ∅ guardedTree ?_
      (.staticTypeError "length expects a list or string, got `num`") rfl
    intro s _ hcount hdepth
    exact ⟨_, _, evaluate_ifTrue _ 0 rfl rfl (by omega) (by omega)⟩

/-- The promise at work: `1 + 2` is checked and evaluated, `length(1)` is refused. -/
theorem check_types_sound_example :
    let ctx : EvalCtx :=
      { functions := ∅, interner := guardedInterner,
        arcEq := { same := fun _ _ => false, eq_of_same := fun h => nomatch h } }
    let arena : ExprArena :=
      { nodes := [.literal (.int 1), .literal (.int 2), .binaryOp 0 .add 1, .functionCall ⟨0⟩ 0 1]
        argsPool := [0]
        nodes_valid := by decide
        pool_valid := by decide }
    let d : Document :=
      { dom := [], timers := [⟨.eval ⟨arena, 3, by decide⟩⟩], functions := ∅, functionOrder := [],
        comps := [], interner := guardedInterner }
    (checkType (.int 3) .num = .ok () ∨ Joins ctx ⟨0, arena, arena.get 2, .new 20000⟩) ∧
      d.Clashes ctx.arcEq := by
  intro ctx arena d
  have hsound := check_types_sound d ctx.arcEq
  refine ⟨?_, hsound.2 (.staticTypeError "length expects a list or string, got `num`") rfl⟩
  have hsum := hsound.1 ⟨0, arena, arena.get 2, .new 20000⟩ 4 ∅ .num (.int 3) _
    (typed_empty _ _ (Nat.zero_le _)) rfl rfl
  exact hsum.imp_right (·.2)

end Mizu
