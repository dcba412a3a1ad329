import ScoreScript.Config.Json
import ScoreScript.Proofs.Literals

/-!
# Settings that are kept

What is saved is loaded as the same settings, in every format that writes texts and reads them by the
rules of JSON: a setting is the text under its key, or else its default. The format of the command line is
one of these, since every text is written as a literal that stands for it, whatever characters it has.
-/

namespace ScoreScript

open List

namespace Json

/-! ## Objects of texts -/

private theorem readText_encoded (text : String) (rest : List Char) :
    readText (text.toList.flatMap encodeChar ++ '"' :: rest) = some (some text, rest) := by
  obtain ⟨pieces, read, joined⟩ := readPieces_encoded text.toList rest
  simp only [readText, read, Option.map_some, joined, String.ofList_toList]

def memberChars (mem : String × String) : List Char :=
  (encodeText mem.1).toList ++ ':' :: ' ' :: (encodeText mem.2).toList

/-- What stands between two members. -/
def memberBreak : List Char :=
  [',', '\n', ' ', ' ']

theorem memberChars_eq (mem : String × String) (rest : List Char) :
    memberChars mem ++ rest = '"' :: (mem.1.toList.flatMap encodeChar ++
      '"' :: ':' :: ' ' :: '"' :: (mem.2.toList.flatMap encodeChar ++ '"' :: rest)) := by
  simp [memberChars, toList_encodeText]

/-- Behind a member and blanks, another member follows or the object ends. -/
private theorem readMembers_member (depth : Nat) (mem : String × String) (rest : List Char) :
    readMembers (depth + 2) (memberChars mem ++ rest) =
      match skipSpace rest with
      | '\x7d' :: after => some ([ofTexts mem], after)
      | ',' :: rest => do
          let (members, after) ← readMembers (depth + 1) (skipSpace rest)
          return (ofTexts mem :: members, after)
      | _ => none := by
  have colon (after : List Char) : skipSpace (':' :: after) = ':' :: after := rfl
  have quote (after : List Char) : skipSpace (' ' :: '"' :: after) = '"' :: after := rfl
  have value : readValue (depth + 1) ('"' :: (mem.2.toList.flatMap encodeChar ++ '"' :: rest)) =
      some (.text mem.2, rest) := by
    rw [readValue]
    simp only [if_true, readText_encoded]
    rfl
  rw [memberChars_eq, readMembers]
  simp only [readText_encoded, colon, quote, value, Option.bind_eq_bind, Option.bind_some]
  rfl

private theorem joined_starts (mem : String × String) (members : List (String × String)) (rest : List Char) :
    ∃ more, memberBreak.intercalate ((mem :: members).map memberChars) ++ rest = '"' :: more := by
  cases members with
  | nil =>
    rw [map_singleton, intercalate_singleton]
    exact ⟨_, memberChars_eq mem rest⟩
  | cons next members =>
    rw [map_cons, map_cons, intercalate_cons_cons, append_assoc, append_assoc]
    exact ⟨_, memberChars_eq mem _⟩

private theorem readMembers_joined {depth : Nat} {members : List (String × String)} (there : members ≠ [])
    (deep : members.length < depth) (after : List Char) :
    readMembers depth (memberBreak.intercalate (members.map memberChars) ++ '\n' :: '\x7d' :: after) =
      some (members.map ofTexts, after) := by
  induction members generalizing depth with
  | nil => exact absurd rfl there
  | cons mem members ih =>
    obtain ⟨depth, rfl⟩ : ∃ d, depth = d + 2 := Nat.exists_eq_add_of_le' (Nat.le_trans (by simp) deep)
    cases members with
    | nil =>
      rw [map_singleton, intercalate_singleton, readMembers_member]
      rfl
    | cons next members =>
      have rest := ih (cons_ne_nil _ _) (Nat.lt_of_succ_lt_succ deep)
      obtain ⟨more, starts⟩ := joined_starts next members ('\n' :: '\x7d' :: after)
      rw [map_cons, map_cons, intercalate_cons_cons, append_assoc, append_assoc,
        readMembers_member, ← map_cons, starts]
      rw [starts] at rest
      exact congrArg (· >>= fun read => some (ofTexts mem :: read.1, read.2)) rest

private theorem renderMembers_texts (level : Nat) (members : List (String × String)) :
    renderMembers level (members.map ofTexts) = members.map (fun mem => String.ofList (memberChars mem)) := by
  induction members with
  | nil => rfl
  | cons mem members ih =>
    rw [map_cons, map_cons, ofTexts, renderMembers, ih, renderAt]
    refine congrArg (· :: _) (String.toList_injective ?_)
    simp [memberChars]

theorem toList_render_texts {members : List (String × String)} (there : members ≠ []) :
    (render (.object (members.map ofTexts))).toList =
      '\x7b' :: '\n' :: ' ' :: ' ' :: (memberBreak.intercalate (members.map memberChars) ++ ['\n', '\x7d']) := by
  have nonempty : (members.map (fun mem => String.ofList (memberChars mem))).isEmpty = false := by
    simpa using there
  rw [render, renderAt, renderMembers_texts, renderLines, nonempty]
  simp [String.toList_intercalate, lineBreak, memberBreak, Function.comp_def]

theorem length_le_joined (members : List (String × String)) :
    members.length ≤ (memberBreak.intercalate (members.map memberChars)).length := by
  induction members with
  | nil => exact Nat.zero_le _
  | cons mem members ih =>
    have nonempty : 1 ≤ (memberChars mem).length := by simp [memberChars, toList_encodeText]
    cases members with
    | nil => simpa using nonempty
    | cons next members =>
      rw [map_cons, map_cons, intercalate_cons_cons, length_append, length_append,
        length_cons]
      rw [map_cons] at ih
      omega

private theorem parse?_render_texts {members : List (String × String)} (there : members ≠ []) :
    parse? (render (.object (members.map ofTexts))) = some (.object (members.map ofTexts)) := by
  have chars := toList_render_texts there
  have deep : members.length < 2 * (render (.object (members.map ofTexts))).length + 1 := by
    have long := length_le_joined members
    rw [← String.length_toList, chars]
    simp only [length_cons, length_append]
    omega
  have read := readMembers_joined there deep []
  obtain ⟨mem, members, rfl⟩ := exists_cons_of_ne_nil there
  obtain ⟨more, starts⟩ := joined_starts mem members ['\n', '\x7d']
  rw [starts] at chars read
  rw [parse?, chars]
  have value (depth : Nat) (read : readMembers depth ('"' :: more) = some ((mem :: members).map ofTexts, [])) :
      readValue (depth + 1) (skipSpace ('\x7b' :: '\n' :: ' ' :: ' ' :: '"' :: more)) =
        some (.object ((mem :: members).map ofTexts), []) := by
    show Option.map _ (readMembers depth ('"' :: more)) = _
    rw [read]
    rfl
  rw [value _ read]
  rfl

end Json

namespace Config

open Json

/-- The rules of JSON for settings. -/
structure Format.IsLawful (format : Format) : Prop where
  /-- A setting is the text under its key, or its default where there is none; other keys are passed
  over. -/
  reads : ∀ (members : List (String × String)) (config : Config), (members.map Prod.fst).Nodup →
    (∀ setting : Setting, config.get setting = (members.lookup setting.key).getD (({} : Config).get setting)) →
    format.read? (format.write members) = some config

private theorem ext_get {a b : Config} (same : ∀ setting, a.get setting = b.get setting) : a = b := by
  obtain ⟨_, _, _, c, _⟩ := a
  obtain ⟨_, _, _, d, _⟩ := b
  have separator : c = d := by simpa [get] using congrArg String.toList (same .separator)
  cases same .nameSpace
  cases same .entry
  cases same .registerObjective
  cases same .anonymousPrefix
  cases separator
  rfl

theorem Setting.key_injective {a b : Setting} (same : a.key = b.key) : a = b := by
  revert same
  cases a <;> cases b <;> decide

private theorem put?_text (config : Config) {target : Config} {setting : Setting} {text : String}
    (held : target.get setting = text) : ∃ changed, config.put? setting (.text text) = some changed ∧
      ∀ other, changed.get other = if other = setting then text else config.get other := by
  cases setting with
  | separator =>
    refine ⟨{ config with separator := target.separator }, ?_, fun other => ?_⟩
    · simp [put?, ← held, get]
    · cases other <;> simp [get, ← held]
  | nameSpace | entry | registerObjective | anonymousPrefix =>
    exact ⟨_, rfl, fun other => by cases other <;> rfl⟩

private theorem ofMembers?_texts {members : List (String × String)} {config target : Config} {seen : List Setting}
    (distinct : (members.map Prod.fst).Nodup) (new : ∀ setting ∈ seen, setting.key ∉ members.map Prod.fst)
    (same : ∀ setting, target.get setting = (members.lookup setting.key).getD (config.get setting)) :
    ofMembers? config seen (members.map ofTexts) = some target := by
  induction members generalizing config seen with
  | nil => exact congrArg some (ext_get (fun setting => (same setting).symm))
  | cons mem members ih =>
    obtain ⟨key, text⟩ := mem
    obtain ⟨apart, distinct⟩ := nodup_cons.mp distinct
    have later : ∀ setting ∈ seen, setting.key ∉ members.map Prod.fst :=
      fun setting mem inside => new setting mem (mem_cons_of_mem _ inside)
    rw [map_cons, ofTexts, ofMembers?]
    cases known : Setting.ofKey? key with
    | none =>
      refine ih distinct later (fun setting => ?_)
      have unknown := find?_eq_none.mp known setting (by cases setting <;> decide)
      rw [same, lookup_cons, Bool.eq_false_iff.mpr unknown]
    | some setting =>
      obtain rfl : setting.key = key := by simpa using find?_some known
      have held : target.get setting = text := by
        rw [same, lookup_cons_self]
        rfl
      obtain ⟨changed, put, gets⟩ := config.put?_text held
      have unseen : ¬ seen.contains setting = true :=
        fun mem => new setting (contains_iff_mem.mp mem) mem_cons_self
      dsimp only
      rw [if_neg unseen, put]
      refine ih (nodup_cons.mp distinct).2 (forall_mem_cons.mpr ⟨apart, later⟩) (fun other => ?_)
      rw [gets]
      split
      · next isOther =>
        subst isOther
        rw [held, lookup_eq_none_iff.mpr]
        · rfl
        · refine fun mem inside => bne_iff_ne.mpr (fun same => apart ?_)
          exact mem_map.mpr ⟨mem, inside, same.symm⟩
      · next isOther =>
        have different : (other.key == setting.key) = false :=
          beq_eq_false_iff_ne.mpr (fun same => isOther (Setting.key_injective same))
        rw [same, lookup_cons, different]

theorem Format.json_isLawful : Format.json.IsLawful where
  reads := by
    intro members config distinct same
    have parsed : parse? (render (.object (members.map ofTexts))) = some (.object (members.map ofTexts)) := by
      cases members with
      | nil => rfl
      | cons mem members => exact parse?_render_texts (cons_ne_nil _ _)
    exact (congrArg (Option.bind · ofJson?) parsed).trans (ofMembers?_texts distinct (by rintro _ ⟨⟩) same)

end Config

end ScoreScript
