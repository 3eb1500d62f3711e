import Mizu.Logic.Dag
import Mizu.Types.Eval.Sites

/-!
# Frames of calls

Each call of a function of the document runs in a frame of its own. Where the call graph is accepted, the frames
that are open at one time belong to different functions.

* `checkDag_bounds_frames`: what is accepted, and how deep calls then nest.
* `shadowed_rejected`: a parameter with the name of its function is taken for a call of it.
-/

namespace Mizu

open List

/-! ## Chains of a relation without cycles -/

section Chains

variable {α : Type} {r : α → α → Prop}

/-- A list in which each element leads to the one before it. -/
def LeadsBack (r : α → α → Prop) (l : List α) : Prop := l.IsChain fun a b => r b a

theorem LeadsBack.transGen {a : α} {l : List α} (h : LeadsBack r (a :: l)) :
    ∀ b ∈ l, Relation.TransGen r b a := by
  induction l generalizing a with
  | nil => intro b hb; exact absurd hb not_mem_nil
  | cons c l ih =>
    obtain ⟨hstep, hrest⟩ := isChain_cons_cons.mp h
    intro b hb
    rcases mem_cons.mp hb with rfl | hb
    · exact .single hstep
    · exact (ih hrest b hb).tail hstep

/-- Without cycles, a chain never comes to an element twice. -/
theorem LeadsBack.nodup (hacyclic : ∀ a, ¬Relation.TransGen r a a) {l : List α} (h : LeadsBack r l) :
    l.Nodup := by
  induction l with
  | nil => exact nodup_nil
  | cons a l ih =>
    refine nodup_cons.mpr ⟨fun hmem => hacyclic a (h.transGen a hmem), ih ?_⟩
    exact List.IsChain.tail h

end Chains

/-! ## Frames -/

section Frames

variable (ctx : EvalCtx)

/-- The evaluations within an evaluation, with the number of frames that were opened in between. -/
inductive Nested (site : Site) : Nat → Site → Prop where
  | refl : Nested site 0 site
  | sub {n site' site''} (h : Nested site n site') (hsub : SubEval ctx site' site'') : Nested site n site''
  | body {n site' site''} (h : Nested site n site') (hbody : BodyEval ctx site' site'') :
      Nested site (n + 1) site''

variable {ctx} {site site' : Site}

/-- A level stays in its arena and goes to what the expression is made of. -/
theorem SubEval.child (h : SubEval ctx site site') :
    site'.arena = site.arena ∧ site'.expr ∈ site.arena.children site.expr := by
  cases h with
  | branch henter hcond => rename_i b _; cases b <;> simp [ExprArena.children]
  | callArg henter hstrict harg => exact harg.expr_mem
  | storeKey henter hname hargs => simp [ExprArena.children, hargs]
  | storeValue henter hname hargs hkey => simp [ExprArena.children, hargs]
  | _ => simp [ExprArena.children]

/-- The functions whose frames are open, the last first, and the place of the site in the last one's body. -/
structure OpenFrames (fs : List Symbol) (site : Site) : Prop where
  chain : LeadsBack (CallsFunction ctx.functions) fs
  mem : ∀ f ∈ fs, f ∈ ctx.functions
  place : ∀ f ∈ fs.head?, ∃ func, ctx.functions.lookup f = some func ∧ site.arena = func.body.arena ∧
    func.body.arena.Below func.body.rootExpr site.expr

theorem OpenFrames.sub {fs : List Symbol} (h : @OpenFrames ctx fs site)
    (hsub : SubEval ctx site site') : @OpenFrames ctx fs site' := by
  obtain ⟨harena, hchild⟩ := hsub.child
  refine ⟨h.chain, h.mem, fun f hf => ?_⟩
  obtain ⟨func, hfunc, hsite, hbelow⟩ := h.place f hf
  rw [hsite] at hchild harena
  exact ⟨func, hfunc, harena, hbelow.trans (.step hchild (.refl _))⟩

theorem OpenFrames.body {fs : List Symbol} (h : @OpenFrames ctx fs site)
    (hbody : BodyEval ctx site site') : ∃ f, @OpenFrames ctx (f :: fs) site' := by
  obtain ⟨func, vs, t, u, ⟨name, st, len, s₁, hexpr, -, -, hfunc, -⟩, -, rfl⟩ := hbody
  have hname : name ∈ ctx.functions := Finmap.mem_iff.mpr ⟨func, hfunc⟩
  refine ⟨name, ?_, ?_, ?_⟩
  · cases fs with
    | nil => exact isChain_singleton _
    | cons f fs =>
      obtain ⟨caller, hcaller, hsite, hbelow⟩ := h.place f rfl
      rw [hexpr] at hbelow
      exact isChain_cons_cons.mpr
        ⟨⟨⟨caller, hcaller, _, hbelow, .inl ⟨st, len, rfl⟩⟩, hname⟩, h.chain⟩
  · exact forall_mem_cons.mpr ⟨hname, h.mem⟩
  · rintro f ⟨⟩
    exact ⟨func, hfunc, rfl, .refl _⟩

theorem Nested.openFrames {n : Nat} (h : Nested ctx site n site') :
    ∃ fs, fs.length = n ∧ @OpenFrames ctx fs site' := by
  induction h with
  | refl => exact ⟨[], rfl, isChain_nil, by simp, by simp⟩
  | sub _ hsub ih =>
    obtain ⟨fs, hlen, hopen⟩ := ih
    exact ⟨fs, hlen, hopen.sub hsub⟩
  | body _ hbody ih =>
    obtain ⟨fs, hlen, hopen⟩ := ih
    obtain ⟨f, hopen⟩ := hopen.body hbody
    exact ⟨f :: fs, by rw [length_cons, hlen], hopen⟩

theorem Nested.le_card (hacyclic : ∀ f, ¬Relation.TransGen (CallsFunction ctx.functions) f f) {n : Nat}
    (h : Nested ctx site n site') : n ≤ ctx.functions.keys.card := by
  obtain ⟨fs, rfl, hopen⟩ := h.openFrames
  rw [← toFinset_card_of_nodup (hopen.chain.nodup hacyclic)]
  refine Finset.card_le_card fun f hf => ?_
  exact Finmap.mem_keys.mpr (hopen.mem f (mem_toFinset.mp hf))

end Frames

/-! ## The call graph -/

/-- A table is accepted exactly if no function reaches itself by calls and by variables with the name of a
function, whatever its parameters and whatever binds the variable; and then no more frames are open at one time
than there are functions. -/
theorem checkDag_bounds_frames {functions : FunctionTable} (hordered : functions.Ordered) {names : List Symbol}
    (hnodup : names.Nodup) (hmem : ∀ f, f ∈ names ↔ f ∈ functions) :
    (checkDag functions names = .ok () ↔ ∀ f, ¬Relation.TransGen (CallsFunction functions) f f) ∧
      (checkDag functions names = .ok () → ∀ ctx : EvalCtx, ctx.functions = functions →
        ∀ site n site', Nested ctx site n site' → n ≤ functions.keys.card) := by
  have haccepts := checkDag_ok_iff hordered hnodup hmem
  refine ⟨haccepts, fun h ctx hctx site n site' hnested => ?_⟩
  subst hctx
  exact hnested.le_card (haccepts.mp h)

theorem singleton_ordered {func : MizuFunction} (h : func.body.arena.Ordered) :
    FunctionTable.Ordered (Finmap.singleton ⟨0⟩ func) := by
  intro f func' hlookup
  obtain rfl : f = ⟨0⟩ := by simpa using Finmap.mem_of_lookup_eq_some hlookup
  rw [Finmap.lookup_singleton_eq] at hlookup
  obtain rfl := Option.some.inj hlookup
  exact h

/-- `g() = 1`. -/
def leafFunction : MizuFunction where
  params := []
  body := {
    arena := { nodes := [.literal (.int 1)], argsPool := [], nodes_valid := one_valid, pool_valid := emptyPool_valid }
    root := 0
    root_valid := Nat.zero_lt_one }

/-- With one function, one frame. -/
theorem checkDag_bounds_frames_leaf :
    checkDag (Finmap.singleton ⟨0⟩ leafFunction) [⟨0⟩] = .ok () ∧
      ∀ ctx : EvalCtx, ctx.functions = Finmap.singleton ⟨0⟩ leafFunction →
        ∀ site n site', Nested ctx site n site' → n ≤ 1 := by
  have hleaf : leafFunction.body.arena.Ordered := by
    unfold ExprArena.Ordered
    decide
  obtain ⟨-, hframes⟩ := checkDag_bounds_frames (singleton_ordered hleaf)
    (nodup_singleton (⟨0⟩ : Symbol)) (by simp)
  refine ⟨rfl, fun ctx hctx site n site' hnested => ?_⟩
  exact (hframes rfl ctx hctx site n site' hnested).trans (by simp)

/-- `f(f: num) = f`: the body is the parameter. -/
def shadowed : MizuFunction where
  params := [(⟨0⟩, .num)]
  body := {
    arena := { nodes := [.var ⟨0⟩], argsPool := [], nodes_valid := firstVar_valid, pool_valid := emptyPool_valid }
    root := 0
    root_valid := Nat.zero_lt_one }

/-- A call, or a variable with the name of a function without parameters. -/
def CallsOrReadsNullary (functions : FunctionTable) (f g : Symbol) : Prop :=
  ∃ func callee, functions.lookup f = some func ∧ functions.lookup g = some callee ∧
    ∃ e, func.body.arena.Below func.body.rootExpr e ∧
      ((∃ start len, e = .functionCall g start len) ∨ e = .var g ∧ callee.params = [])

/-- The table of this function has no edge of that kind, but is rejected. -/
theorem shadowed_rejected : ¬∀ (functions : FunctionTable) (names : List Symbol), functions.Ordered →
    names.Nodup → (∀ f, f ∈ names ↔ f ∈ functions) →
    (checkDag functions names = .ok () ↔ ∀ f, ¬Relation.TransGen (CallsOrReadsNullary functions) f f) := by
  intro h
  have hiff := h (Finmap.singleton ⟨0⟩ shadowed) [⟨0⟩] (singleton_ordered (by unfold ExprArena.Ordered; decide)) (by decide) (by simp)
  have hrejected : checkDag (Finmap.singleton ⟨0⟩ shadowed) [⟨0⟩] = .error (.error cycleFound) := rfl
  have hnone : ∀ f g, ¬CallsOrReadsNullary (Finmap.singleton ⟨0⟩ shadowed) f g := by
    rintro f g ⟨func, callee, hfunc, hcallee, e, hbelow, hedge⟩
    obtain rfl : f = ⟨0⟩ := by simpa using Finmap.mem_of_lookup_eq_some hfunc
    obtain rfl : g = ⟨0⟩ := by simpa using Finmap.mem_of_lookup_eq_some hcallee
    rw [Finmap.lookup_singleton_eq] at hfunc hcallee
    obtain rfl := Option.some.inj hfunc
    obtain rfl := Option.some.inj hcallee
    have hvar : e = .var ⟨0⟩ := by
      cases hbelow with
      | refl => rfl
      | step hchild _ => cases hchild
    rcases hedge with ⟨start, len, hcall⟩ | ⟨-, hparams⟩
    · rw [hvar] at hcall
      cases hcall
    · cases hparams
  have haccepted := hiff.mpr fun f hcycle => by
    obtain ⟨g, -, hedge⟩ := Relation.TransGen.tail'_iff.mp hcycle
    exact hnone g f hedge
  rw [hrejected] at haccepted
  cases haccepted

end Mizu
