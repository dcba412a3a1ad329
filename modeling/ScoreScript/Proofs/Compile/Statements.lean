import ScoreScript.Proofs.Compile.Expressions

/-!
# Statements

An engine that keeps the rules within a budget gives one that writes statements within a budget that
is larger by one. The bodies of a statement weigh less than the statement, since its keyword or its
brace is taken away.
-/

namespace ScoreScript

open List

namespace Terms.AllowsAll

variable {terms : Terms} {config : Config}

theorem items {tree : Tree} (all : terms.AllowsAll config [tree]) : terms.AllowsAll config tree.items := by
  unfold Tree.items
  split
  · exact all.children
  · exact all

theorem body {body : Tree} (all : terms.AllowsAll config [body]) (isBody : body.IsBody) {token : Token}
    (mem : token ∈ Engine.bodyTokens body) : terms.Allows config token.text :=
  all body (mem_singleton.mpr rfl) token (Tree.mem_bodyTokens isBody mem)

end Terms.AllowsAll

namespace Engine

open Compile

variable {terms : Terms} {s : State} {engine : Engine} {budget : Nat} {other : Option Tree}

/-! ## Units -/

structure Compilable (terms : Terms) (config : Config) (budget : Nat) (tokens : List Token) : Prop where
  words : ∀ token ∈ tokens, terms.Allows config token.text
  weight : Token.weigh config.separator false tokens + 2 ≤ budget

/-- A statement that an engine with a budget can write. -/
structure Writable (terms : Terms) (config : Config) (budget : Nat) (tree : Tree) : Prop
    extends Tree.Within config.separator budget tree where
  words : terms.AllowsAll config [tree]

theorem Compilable.writable (usable : s.config.Usable) {tokens : List Token}
    (compilable : Compilable terms s.config budget tokens) {trees : List Tree}
    (read : s.layout.readStatements tokens = .ok trees) : ∀ tree ∈ trees, Writable terms s.config budget tree := by
  intro tree mem
  have found := Layout.readStatements_found read tree mem
  refine ⟨found.within compilable.weight, ?_⟩
  intro other isTree token inside
  rw [mem_singleton.mp isTree] at inside
  rcases found.stems token inside with filler | ⟨word, isWord, same⟩
  · exact Terms.allows_filler usable filler
  · rw [← same]
    exact compilable.words word isWord

variable (lawful : engine.Lawful s.config terms budget) (ready : s.Ready terms) (changing : terms.still = false)

namespace Lawful

include lawful ready changing

theorem writeAll_behaves {trees : List Tree} (writable : ∀ tree ∈ trees, Writable terms s.config budget tree) :
    Behaves terms s (engine.writeAll trees) (fun _ _ => True) := by
  induction trees generalizing s with
  | nil => exact .pure trivial
  | cons tree trees ih =>
    obtain ⟨within, words⟩ := writable tree (mem_cons_self ..)
    rw [writeAll]
    refine .seq (lawful.write changing s tree ready rfl within words) ready ?_
    intro _ t ready' grows _
    refine ih (lawful.grows grows) ready' ?_
    rw [grows.config]
    exact fun tree mem => writable tree (mem_cons_of_mem _ mem)

theorem compileTokens_behaves {tokens : List Token} (compilable : Compilable terms s.config budget tokens) :
    Behaves terms s (engine.compileTokens tokens) (fun _ _ => True) := by
  have blameless := (s.layout.readStatements_reads tokens).1
  unfold compileTokens
  refine .get_bind (.seq (m := fun trees t => t = s ∧ s.layout.readStatements tokens = .ok trees)
    (.lift blameless (fun _ read => ⟨rfl, read⟩)) ready ?_)
  rintro trees _ ready' _ ⟨rfl, read⟩
  exact lawful.writeAll_behaves ready' changing (compilable.writable ready'.usable read)

theorem compileUnit_behaves {tokens : List Token} (compilable : Compilable terms s.config budget tokens)
    (pos : Position) : MakesUnit terms s (engine.compileUnit tokens pos) := by
  obtain ⟨scope, found⟩ := ScopeTree.exists_of_lt_size ready.sound.current
  refine @Engine.compileUnit_behaves terms s engine ready scope found pos tokens terms rfl rfl ?_
  have same : { terms with still := false } = terms := by
    cases terms
    cases changing
    rfl
  have inside : (s.entered scope pos).Ready terms := same ▸ ready.entered found pos
  exact Lawful.compileTokens_behaves (s := s.entered scope pos) lawful inside changing compilable

theorem compileBlock_behaves {body : Tree} (compilable : Compilable terms s.config budget (bodyTokens body)) :
    MakesUnit terms s (engine.compileBlock body) :=
  lawful.compileUnit_behaves ready changing compilable _

private theorem callBlock_behaves {body : Tree} (compilable : Compilable terms s.config budget (bodyTokens body)) :
    Behaves terms s (engine.callBlock body) (fun _ _ => True) :=
  Ends.bind (lawful.compileBlock_behaves ready changing compilable)
    (fun _ _ grows new => emitCall_ends ready grows new)

end Lawful

/-! ## Declarations -/

private theorem ofWord?_ne_result {word : String} {usage : Usage} (found : Usage.ofWord? word = some usage) :
    usage ≠ .result := by
  rintro rfl
  have mem := mem_of_find?_eq_some found
  exact absurd mem (by decide)

private theorem readModifiers_blameless (access : Option Access) (usage : Option Usage) {items : List Tree} :
    Blameless (readModifiers access usage items) := by
  induction items generalizing access usage with
  | nil => exact .ok _
  | cons first rest ih =>
    rw [readModifiers]
    split
    · exact .ok _
    split
    · split
      · exact .error nofun
      · exact ih _ _
    split
    · split
      · exact .error nofun
      · exact ih _ _
    · exact .ok _

theorem readModifiers_eq {access access' : Option Access} {usage usage' : Option Usage}
    {items rest : List Tree} (read : readModifiers access usage items = .ok (access', usage', rest))
    (chosen : usage ≠ some .result) : rest <:+ items ∧ usage' ≠ some .result := by
  induction items generalizing access usage with
  | nil =>
    cases read
    exact ⟨suffix_rfl, chosen⟩
  | cons first others ih =>
    rw [readModifiers] at read
    split at read
    · cases read
      exact ⟨suffix_rfl, chosen⟩
    split at read
    · split at read
      · cases read
      · obtain ⟨suffix, last⟩ := ih read chosen
        exact ⟨suffix.trans (suffix_cons _ _), last⟩
    split at read
    · next found =>
        split at read
        · cases read
        · obtain ⟨suffix, last⟩ := ih read (fun same => ofWord?_ne_result found (Option.some.inj same))
          exact ⟨suffix.trans (suffix_cons _ _), last⟩
    · cases read
      exact ⟨suffix_rfl, chosen⟩

namespace Lawful

include lawful ready

private theorem initialValue_behaves {rest : List Tree} (evaluable : Tree.Evaluable terms s.config budget rest)
    {name : String} : Behaves terms s (engine.initialValue name rest) (GivesClear terms) := by
  cases rest with
  | nil => exact .pure (by rintro _ ⟨⟩)
  | cons eq value =>
    rw [initialValue]
    split
    · have smaller : Tree.Evaluable terms s.config budget value :=
        ⟨evaluable.words.subset (fun _ => mem_cons_of_mem _),
          Nat.lt_of_le_of_lt (Nat.le_add_left _ _) evaluable.size⟩
      refine .seq (lawful.evaluateItems_behaves ready smaller) ready ?_
      intro result t _ _ clear
      refine .pure ?_
      rintro _ ⟨⟩
      exact clear
    · exact .get_bind (.throw (by rintro ⟨⟩))

include changing

private theorem writeDeclaration_behaves {items : List Tree} (evaluable : Tree.Evaluable terms s.config budget items) :
    Behaves terms s (engine.writeDeclaration items) (fun _ _ => True) := by
  unfold writeDeclaration
  dsimp only
  cases read : readModifiers none none items with
  | error fault =>
    exact .error_bind (runFrom_lift _) (readModifiers_blameless none none fault read)
  | ok parts =>
  obtain ⟨access, usage, rest⟩ := parts
  obtain ⟨⟨before, rfl⟩, chosen⟩ := readModifiers_eq read nofun
  refine .ok_bind (a := (access, usage, rest)) (runFrom_lift _) ?_
  cases rest with
  | nil => exact .throw nofun
  | cons typeTree rest =>
  rcases asLeaf_cases typeTree with ⟨fault, failed, blameless⟩ | ⟨typeToken, rfl, found⟩
  · exact .error_bind (by rw [runFrom_lift, failed]) blameless
  refine .ok_bind (a := typeToken) (by rw [runFrom_lift, found]) ?_
  rcases typeNamed_cases typeToken.text typeToken.position with
    ⟨fault, failed, blameless⟩ | ⟨type, isType⟩
  · exact .error_bind (by rw [runFrom_lift, failed]) blameless
  refine .ok_bind (a := type) (by rw [runFrom_lift, isType]) ?_
  cases rest with
  | nil => exact .throw nofun
  | cons nameTree rest =>
  rcases asLeaf_cases nameTree with ⟨fault, failed, blameless⟩ | ⟨nameToken, rfl, isName⟩
  · exact .error_bind (by rw [runFrom_lift, failed]) blameless
  refine .ok_bind (a := nameToken) (by rw [runFrom_lift, isName]) ?_
  have inside : Tree.Evaluable terms s.config budget rest := by
    refine ⟨evaluable.words.subset (fun tree mem => ?_), ?_⟩
    · exact mem_append_right _ (mem_cons_of_mem _ (mem_cons_of_mem _ mem))
    · have size := evaluable.size
      rw [Tree.sizes_append, Tree.sizes, Tree.sizes] at size
      omega
  refine .seq (lawful.initialValue_behaves ready inside) ready ?_
  intro value t ready' grows given
  have notResult : usage.getD .ordinary ≠ .result := by
    cases usage with
    | none => decide
    | some usage => exact fun same => chosen (congrArg some same)
  refine .seq (declare_behaves ready'.toStable changing notResult) ready' ?_
  rintro id u ready'' later ⟨var, made⟩
  cases value with
  | some value =>
    have clear := (given value rfl).grows ready'.toStable later
    have grown := grows.trans later ready.usable ready.sound
    refine .seq ((lawful.grows grown).operate_behaves ready''
      (made.typed ready'.toStable later).clear clear (by decide) (by rintro ⟨⟩)) ready'' ?_
    exact fun _ _ _ _ _ => .pure trivial
  | none =>
    dsimp only
    split
    · exact .throw nofun
    · exact .pure trivial

end Lawful

/-! ## Branches -/

theorem guardRegister_behaves (ready : s.Ready terms) {reg : Register}
    (isTruth : terms.typed = true → s.HoldsTruth reg) {existing : Nat} {pos : Position} :
    Behaves terms s (guardRegister reg existing pos)
      (fun guard t => s.predates reg existing = false ∧ guard = reg ∧ t = s ∨
        t.IsGeneratedRegister guard) := by
  unfold guardRegister
  refine .get_bind ?_
  split
  · next kept => exact .pure (.inl ⟨by simpa using kept, rfl, rfl⟩)
  refine .seq (temporary_behaves ready.toStable) ready ?_
  rintro snapshot t ready' grows ⟨var, name, made, generated⟩
  have typed := made.typed ready.toStable grows
  have src : terms.typed = true → (Operand.resident reg).IsTruth t := fun isTyped =>
    (grows.keepsTypes ready.usable ready.sound).truths _ (isTruth isTyped)
  refine .seq (store_behaves ready'.toStable typed (.inr rfl) (fun _ => src)) ready' ?_
  intro cmds u ready'' later harmless
  refine .seq (emit_behaves ready'' harmless) ready'' ?_
  intro _ v ready₃ last _
  have grown := later.trans last ready'.usable ready'.sound
  obtain ⟨var', found, keeps⟩ := grown.vars snapshot var made.found
  have held := keeps.register _ (made.score (.inr rfl) (by decide))
  have isRegister : t.IsGeneratedRegister (t.registerAt var.scope var.name) :=
    ⟨snapshot, var, made.found, by rw [made.called, grows.config]; exact generated, rfl⟩
  rcases operand_cases ready₃.sound found (.inr (keeps.type.trans made.isType)) pos with
    ⟨score, isScore, _⟩ | ⟨copy, isCopy, ran⟩ | ⟨unset, _⟩
  · rw [held] at isScore
    cases isScore
  · rw [held] at isCopy
    cases isCopy
    exact .ok_bind ran (.pure (.inr (isRegister.grows grown ready'.usable ready'.sound)))
  · rw [held] at unset
    cases unset

/-- The condition of an `if` is evaluated and becomes a truth value. -/
def evaluateCondition (engine : Engine) (cond : Tree) : Compile Operand := do
  let value ← engine.evaluateTree cond
  let value ← cast value ValueType.bool.name cond.position
  operand value cond.position

theorem writeBranches_eq (engine : Engine) (cond body : Tree) (other : Option Tree) :
    engine.writeBranches cond body other = (do
      let existing := (← get).vars.size
      match ← engine.evaluateCondition cond with
      | .constant score =>
        match if score != 0 then some body else other with
        | some taken => engine.callBlock taken
        | none => return
      | .resident reg =>
        match other with
        | none => engine.callGuarded false reg body
        | some other =>
          let reg ← guardRegister reg existing cond.position
          engine.callGuarded false reg body
          engine.callGuarded true reg other) := by
  simp only [writeBranches, evaluateCondition, bind_assoc] <;> rfl

namespace Lawful

include lawful ready

theorem evaluateCondition_behaves {cond : Tree} (words : terms.AllowsAll s.config [cond])
    (size : cond.size < budget) : Behaves terms s (engine.evaluateCondition cond)
      (fun src t => ∀ reg, src = .resident reg → ∃ (id : Nat) (var : Variable),
        t.vars[id]? = some var ∧ var.type = .bool ∧ var.value = .register reg ∧ var.scope ≤ t.current) := by
  unfold evaluateCondition
  refine .seq (lawful.evaluateTree_behaves ready words (.inl size)) ready ?_
  intro value t ready₁ grows₁ clear
  refine .seq (cast_behaves ready₁ clear nofun) ready₁ ?_
  rintro truth u ready₂ grows₂ ⟨var, found, isBool, isOpen⟩
  rcases operand_cases ready₂.sound found (.inr isBool) cond.position with
    ⟨score, _, ran⟩ | ⟨reg, held, ran⟩ | ⟨_, fault, ran, blameless⟩
  · exact .of_same ran nofun
  · refine .of_same ran ?_
    rintro _ ⟨⟩
    exact ⟨truth, var, found, isBool, held, (isOpen reg held).place⟩
  · exact .of_error ran blameless

include changing

private theorem writeBranches_behaves {cond body : Tree}
    (words : terms.AllowsAll s.config [cond]) (size : cond.size < budget)
    (compilable : ∀ part ∈ body :: other.toList, Compilable terms s.config budget (bodyTokens part)) :
    Behaves terms s (engine.writeBranches cond body other) (fun _ _ => True) := by
  rw [writeBranches_eq]
  refine .get_bind (.seq (lawful.evaluateCondition_behaves ready words size) ready ?_)
  intro src t ready₁ grows₁ isCondition
  have lawful₁ := lawful.grows grows₁
  rw [← grows₁.config] at compilable
  have isBody := compilable body (mem_cons_self ..)
  cases src with
  | constant score =>
    dsimp only
    split
    · next taken isTaken =>
        refine lawful₁.callBlock_behaves ready₁ changing (compilable taken ?_)
        split at isTaken
        · cases isTaken
          exact mem_cons_self ..
        · rw [isTaken]
          simp
    · exact .pure trivial
  | resident reg =>
    cases other with
    | none =>
      exact callGuarded_behaves ready₁ (lawful₁.compileBlock_behaves ready₁ changing isBody)
    | some other =>
      have isOther := compilable other (by simp)
      obtain ⟨id, var, found, isBool, held, _⟩ := isCondition reg rfl
      have isTruth : t.HoldsTruth reg := ⟨id, var, found, isBool, held⟩
      refine .seq (guardRegister_behaves ready₁ (fun _ => isTruth)) ready₁ ?_
      intro guard v ready₂ grows₂ _
      have lawful₂ := lawful₁.grows grows₂
      rw [← grows₂.config] at isBody isOther
      refine .seq (callGuarded_behaves ready₂ (lawful₂.compileBlock_behaves ready₂ changing isBody)) ready₂ ?_
      intro _ w ready₃ grows₃ _
      rw [← grows₃.config] at isOther
      exact callGuarded_behaves ready₃ ((lawful₂.grows grows₃).compileBlock_behaves ready₃ changing isOther)

end Lawful

/-! ## Statements -/

theorem Writable.ifOf {config : Config} {tree cond body : Tree}
    (writable : Writable terms config (budget + 1) tree) (ifOf : tree.IfOf cond body other) :
    terms.AllowsAll config [cond] ∧ cond.size < budget ∧
      ∀ part ∈ body :: other.toList, Compilable terms config budget (bodyTokens part) := by
  obtain ⟨size, light⟩ := writable.toWithin.ifOf ifOf
  obtain ⟨inCondition, inParts⟩ : cond ∈ tree.items ∧ ∀ part ∈ body :: other.toList, part ∈ tree.items := by
    cases ifOf <;> simp [Tree.items]
  have inside : ∀ part ∈ tree.items, terms.AllowsAll config [part] := by
    intro part mem
    apply writable.words.items.subset
    intro other isPart
    rw [mem_singleton.mp isPart]
    exact mem
  refine ⟨inside cond inCondition, size, ?_⟩
  intro part mem
  have isBody := ifOf.isBody writable.isStatement part mem
  exact ⟨fun token => (inside part (inParts part mem)).body isBody, light part mem⟩

theorem runFrom_writeIf {tree cond body : Tree} (ifOf : tree.IfOf cond body other) (engine : Engine) :
    (engine.writeIf tree).runFrom s = (engine.writeBranches cond body other).runFrom s := by
  cases ifOf <;> rfl

namespace Lawful

include lawful ready changing

private theorem writeIf_behaves {tree : Tree} (writable : Writable terms s.config (budget + 1) tree) {cond body : Tree}
    (ifOf : tree.IfOf cond body other) : Behaves terms s (engine.writeIf tree) (fun _ _ => True) := by
  obtain ⟨words, size, compilable⟩ := writable.ifOf ifOf
  exact Ends.of_eq (runFrom_writeIf ifOf engine) (lawful.writeBranches_behaves ready changing words size compilable)

theorem writeStatement_behaves {tree : Tree} (writable : Writable terms s.config (budget + 1) tree) :
    Behaves terms s (engine.writeStatement tree) (fun _ _ => True) := by
  have evaluable : Tree.Evaluable terms s.config budget tree.items :=
    ⟨writable.words.items, writable.sizes_items⟩
  have evaluates : Behaves terms s (do let _ ← engine.evaluate tree.items tree.position)
      (fun _ _ => True) :=
    .seq (lawful.evaluate s tree.items tree.position ready rfl evaluable) ready
      (fun _ _ _ _ _ => .pure trivial)
  unfold writeStatement
  dsimp only
  cases parts : tree.items with
  | nil =>
    rw [parts] at evaluates
    exact evaluates
  | cons first rest =>
    rw [parts] at evaluates evaluable
    dsimp only
    split
    · next isKeyword =>
        have isIf := Tree.word?_of_isKeyword isKeyword
        obtain ⟨cond, body, other, ifOf⟩ := writable.isStatement.ifOf parts isIf
        exact lawful.writeIf_behaves ready changing writable ifOf
    split
    · exact .throw (by rintro ⟨⟩)
    split
    · next block =>
        obtain ⟨isBody, rfl⟩ := Tree.isBlock_eq block
        exact lawful.callBlock_behaves ready changing
          ⟨fun token => evaluable.words.body isBody, writable.block parts isBody⟩
    split
    · exact lawful.writeDeclaration_behaves ready changing evaluable
    · exact evaluates

end Lawful

end Engine

end ScoreScript
