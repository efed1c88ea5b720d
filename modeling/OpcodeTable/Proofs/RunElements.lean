import OpcodeTable.Proofs.Declarations

/-!
# The elements of runs

The code of any run stands for its entries, not only that of a run which compression makes.  It
ends with a comma, and once the repetitions in what precedes the comma are replaced by what the
preamble of an initializer defines them as, the elements of the entries are left with commas
between them.
-/

namespace OpcodeTable

namespace Expansion

open Token (word mark separated)

/-- The definitions that the preamble of an initializer makes. -/
def preambleDefinitions (config : Config) : List Definition :=
  definitions ((Initializer.preamble config).map String.toList)

/-- The definitions that the preamble makes of repetitions, which is all but the one of elements. -/
def preambleRepetitions (config : Config) : List Definition :=
  (preambleDefinitions config).filter (·.name != "ARM_FN")

/-- The parts of tokens between commas outside parentheses, if the parentheses match. -/
def parts? (tokens : List Token) : Option (List (List Token)) :=
  match argumentsFrom 0 [] (tokens ++ [mark ')']) with
  | some (parts, []) => some parts
  | _ => none

theorem map_name_preambleDefinitions (config : Config) :
    (preambleDefinitions config).map (·.name) = Initializer.definedNames := by
  rw [preambleDefinitions, definitions_preamble_eq_cons (definition?_elementLine config.owner)]
  rfl

/-- The repetitions are defined in the same way for every configuration. -/
theorem preambleRepetitions_eq (config : Config) : preambleRepetitions config = runDefinitions := by
  rw [preambleRepetitions, preambleDefinitions,
    definitions_preamble_eq_cons (definition?_elementLine config.owner)]
  rfl

/-- Parts are found again between the commas, as their own commas are inside parentheses. -/
theorem parts?_separated {parts : List (List Token)} (hne : parts ≠ [])
    (henclosed : ∀ part ∈ parts, Enclosed part) : parts? (separated parts) = some parts := by
  rw [parts?, argumentsFrom_separated hne henclosed []]

/-- What the code of a run is made of before its comma. -/
theorem tokens_code {run : Run String} {body : List Token} (hstands : Stands run body)
    {code : String} (hcode : run.invocation = code ++ ",") : Token.tokens code.toList = body := by
  have hcomma : ",".toList = [','] := by decide
  have htokens := hstands.spells.apply_eq rfl
  rw [hcode, String.toList_append, hcomma,
    Token.tokens_append_mark (by decide) (by decide)] at htokens
  exact List.append_cancel_right htokens

/-- The code of a run of words ends with a comma.  In what precedes it the definitions of the
preamble replace all repetitions, and what they leave are the elements of the run's entries in
their order, with commas between them.  Nothing is invoked that the preamble does not define. -/
theorem elements_of_invocation (config : Config) (run : Run String)
    (hnamed : ∀ name ∈ run.shape.names, Word.isWord name.toList = true) (hpos : 0 < run.count) :
    ∃ code, run.write .unlimited = .ok ⟨code ++ ",", none⟩ ∧
      (∃ parts, parts? (expand (preambleRepetitions config) (Token.tokens code.toList)) =
          some parts ∧
        parts.length = run.count ∧
        parts = run.entries.map fun name => [word "ARM_FN", mark '(', word name, mark ')']) ∧
      (∀ name ∈ invoked (Token.tokens code.toList),
        ∃ definition ∈ preambleDefinitions config, definition.name = name) ∧
      ∀ name ∈ invoked (expand (preambleRepetitions config) (Token.tokens code.toList)),
        name = "ARM_FN" := by
  obtain ⟨body, hstands⟩ := exists_stands hnamed
  obtain ⟨code, hcode⟩ := run.exists_invocation_eq
  have htokens := tokens_code hstands hcode
  have hexpand := (hstands.yields renders_runDefinitions).apply_eq (expand_nil _)
  rw [← preambleRepetitions_eq config] at hexpand
  have hne : run.entries.map elementTokens ≠ [] :=
    mt List.map_eq_nil_iff.1 (Run.entries_ne_nil hpos)
  have henclosed : ∀ part ∈ run.entries.map elementTokens, Enclosed part :=
    List.forall_mem_map.2 fun name _ => enclosed_elementTokens name
  refine ⟨code, by rw [Run.write_unlimited, hcode], ?_, ?_, ?_⟩
  · refine ⟨run.entries.map elementTokens, ?_, ?_, rfl⟩
    · rw [htokens, hexpand, parts?_separated hne henclosed]
    · rw [List.length_map, Run.length_entries]
  · intro name hname
    obtain ⟨names, hdefined, hinvokes⟩ := hstands.invokes
    rw [htokens, hinvokes.apply_eq rfl] at hname
    have hmem := hdefined hname
    rw [← map_name_preambleDefinitions config] at hmem
    exact List.mem_map.1 hmem
  · intro name hname
    have hinvokes := Invokes.separated fun entry (_ : entry ∈ run.entries) =>
      invokes_elementTokens entry
    rw [htokens, hexpand, hinvokes.apply_eq rfl] at hname
    obtain ⟨_, -, hmem⟩ := List.mem_flatMap.1 hname
    exact List.mem_singleton.1 hmem

/-- An entry with the name of a repetition invokes nothing, as no parenthesis follows it. -/
theorem elements_of_invocation_nested :
    (∀ name ∈ (Shape.repeated "REPEAT_16").names, Word.isWord name.toList = true) ∧
      (0 : Nat) < 32 ∧
      ∃ code, (Run.mk 480 32 (.repeated "REPEAT_16")).write .unlimited = .ok ⟨code ++ ",", none⟩ ∧
        parts? (expand (preambleRepetitions .standard) (Token.tokens code.toList)) =
          some (List.replicate 32 [word "ARM_FN", mark '(', word "REPEAT_16", mark ')']) := by
  have hnamed : ∀ name ∈ (Shape.repeated "REPEAT_16").names, Word.isWord name.toList = true := by
    decide
  have hpos : (0 : Nat) < 32 := by decide
  obtain ⟨code, hwrite, ⟨parts, hparts, -, rfl⟩, -⟩ :=
    elements_of_invocation .standard ⟨480, 32, .repeated "REPEAT_16"⟩ hnamed hpos
  rw [Run.entries_repeated, List.map_replicate] at hparts
  exact ⟨hnamed, hpos, code, hwrite, hparts⟩

end Expansion

end OpcodeTable
