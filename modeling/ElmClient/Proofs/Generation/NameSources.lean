/-
Module: ElmClient.Proofs.Generation.NameSources
Purpose: The names that a module declares for unions, enumerations, fragments, operations and input
  types, and when they are identifiers and differ from one another. Every name of a type or of a
  constructor is a base name or one with a part behind an underscore, so base names that are apart
  keep whole families of names apart.
Main exports: NameSource, NameSource.IsFit, NameSource.legal_iff_isFit, NameSource.Apart,
  NameSource.Distinct, NameSource.distinct_iff
-/
import Mathlib.Data.List.Nodup
import Mathlib.Data.List.Perm.Basic
import ElmClient.Proofs.Elm.Identifiers

namespace ElmClient

open GraphQL (isName)
open Text (capitalize decapitalize lowercase startsWith isWord_of_isName)

/-- What a module declares names for: unions and enumerations of the schema, fragments, of which
some are open, operations with those variables whose types have a declaration, and input types
that contain themselves. -/
inductive NameSource where
  | union (name : String) (members : List String)
  | enum (name : String) (values : List String)
  | fragment (name : String) (isOpen : Bool)
  | operation (title : String) (takesParameters : Bool) (inputs : List String)
  | input (name : String)
deriving DecidableEq, Repr, Inhabited

namespace NameSource

/-! ### Rules of names -/

/-- The name of the type, or of the first one. -/
def typeName : NameSource → String
  | .union name _ => name
  | .enum name _ | .fragment name _ | .operation name _ _ | .input name => capitalize name

/-- The names of types. -/
def typeNames : NameSource → List String
  | .union name _ => [name]
  | .enum name _ => [capitalize name]
  | .fragment name isOpen => capitalize name :: if isOpen then [Name.openAlias name] else []
  | .operation title takesParameters inputs =>
      capitalize title ::
        (inputs.map (fun input => capitalize title ++ "_Input_" ++ capitalize input) ++
          if takesParameters then [capitalize title ++ "_Input"] else [])
  | .input name => [capitalize name]

/-- The names of constructors. -/
def constructorNames : NameSource → List String
  | .union name members => members.map (Name.unionConstructor name)
  | .enum name values => values.map (Name.enumConstructor name)
  | .input name => [capitalize name]
  | .fragment _ _ | .operation _ _ _ => []

/-- The names of values. -/
def valueNames : NameSource → List String
  | .enum name _ => [Name.enumDecoder name]
  | .operation title _ _ => [decapitalize title, Name.decoder (capitalize title)]
  | .input name => [Name.encoder name]
  | .union _ _ | .fragment _ _ => []

/-- Whether the names that are given are names of the grammar. -/
def IsNamed : NameSource → Prop
  | .union name members => isName name = true ∧ ∀ member ∈ members, isName member = true
  | .enum name values => isName name = true ∧ ∀ value ∈ values, isName value = true
  | .operation title _ inputs => isName title = true ∧ ∀ input ∈ inputs, isName input = true
  | .fragment name _ | .input name => isName name = true

theorem isWord_typeName {source : NameSource} (named : source.IsNamed) :
    Text.IsWord source.typeName := by
  cases source with
  | union => exact isWord_of_isName named.1
  | enum => exact (isWord_of_isName named.1).capitalize
  | fragment => exact (isWord_of_isName named).capitalize
  | operation => exact (isWord_of_isName named.1).capitalize
  | input => exact (isWord_of_isName named).capitalize

/-! ### Identifiers -/

/-- Every name is an identifier of its class. -/
structure Legal (source : NameSource) : Prop where
  values : ∀ name ∈ source.valueNames, Elm.IsValueName name
  types : ∀ name ∈ source.typeNames, Elm.IsTypeName name
  constructors : ∀ name ∈ source.constructorNames, Elm.IsTypeName name

/-- The name starts with a letter and is no reserved word with its first letter in the case in which
it is declared by itself. The name of a union, which is declared as it is, starts with a capital. -/
def IsFit : NameSource → Prop
  | .union name _ => startsWith Char.isUpper name = true ∧ name ∉ Name.reserved
  | .enum name _ | .fragment name _ | .input name =>
      startsWith Char.isAlpha name = true ∧ capitalize name ∉ Name.reserved
  | .operation title _ _ => startsWith Char.isAlpha title = true ∧
      capitalize title ∉ Name.reserved ∧ decapitalize title ∉ Name.reserved

instance (source : NameSource) : Decidable source.IsFit := by
  cases source <;> exact inferInstanceAs (Decidable (_ ∧ _))

/-- The parts behind the name of the type in further names of types. -/
def aliasParts : NameSource → List String
  | .fragment _ isOpen => if isOpen then [""] else []
  | .operation _ takesParameters inputs =>
      inputs.map (fun input => "Input_" ++ capitalize input) ++
        if takesParameters then ["Input"] else []
  | .union _ _ | .enum _ _ | .input _ => []

/-- The parts behind the name of the type in names of constructors. -/
def constructorParts : NameSource → List String
  | .union _ members => members
  | .enum _ values => values.map fun value => capitalize (lowercase value)
  | .fragment _ _ | .operation _ _ _ | .input _ => []

theorem typeNames_eq (source : NameSource) :
    source.typeNames =
      source.typeName :: source.aliasParts.map (Name.suffixed source.typeName) := by
  cases source with
  | union | enum | input => rfl
  | fragment name isOpen =>
      cases isOpen <;> simp [typeNames, typeName, aliasParts, Name.suffixed, Name.openAlias]
  | operation title takesParameters inputs =>
      have each (part : String) : Name.suffixed (capitalize title) ("Input_" ++ part) =
          capitalize title ++ "_Input_" ++ part := by
        apply String.toList_injective
        simp [Name.suffixed]
      have all : Name.suffixed (capitalize title) "Input" = capitalize title ++ "_Input" := by
        apply String.toList_injective
        simp [Name.suffixed]
      cases takesParameters <;>
        simp [typeNames, typeName, aliasParts, each, all, Function.comp_def]

/-- Behind a capital, nothing is changed about the constructor of a member of a union. -/
theorem unionConstructor_eq_suffixed {union : String}
    (first : startsWith Char.isUpper union = true) (member : String) :
    Name.unionConstructor union member = Name.suffixed union member := by
  have capital : startsWith Char.isUpper (Name.suffixed union member) = true :=
    Text.startsWith_append _ (Text.startsWith_append _ first)
  have other : Name.suffixed union member ≠ "__typename" := by
    intro same
    rw [same] at capital
    exact absurd capital (by decide)
  have free : Name.reserved.contains (Name.suffixed union member) = false := by
    simpa using Name.suffixed_notMem_reserved union member
  change Name.safe (Name.suffixed union member) = _
  rw [Name.safe, beq_eq_false_iff_ne.mpr other, free]
  rfl

/-- The constructor that has the name of the type. -/
def ownConstructor? : NameSource → Option String
  | .input name => some (capitalize name)
  | .union _ _ | .enum _ _ | .fragment _ _ | .operation _ _ _ => none

theorem IsFit.constructorNames_eq {source : NameSource} (fit : source.IsFit) :
    source.constructorNames = source.ownConstructor?.toList ++
      source.constructorParts.map (Name.suffixed source.typeName) := by
  cases source with
  | fragment | operation | input => rfl
  | union name members => exact List.map_congr_left fun member _ =>
      unionConstructor_eq_suffixed fit.1 member
  | enum name values =>
      rw [constructorNames, constructorParts, List.map_map]
      rfl

theorem IsNamed.aliasParts {source : NameSource} (named : source.IsNamed) :
    ∀ part ∈ source.aliasParts, Text.IsWord part := by
  cases source with
  | union | enum | input => exact fun _ absent => absurd absent List.not_mem_nil
  | fragment name isOpen =>
      cases isOpen
      · exact fun _ absent => absurd absent List.not_mem_nil
      · exact List.forall_mem_singleton.mpr (by decide)
  | operation title takesParameters inputs =>
      intro part member
      rcases List.mem_append.mp member with one | all
      · obtain ⟨input, among, rfl⟩ := List.mem_map.mp one
        have word := (isWord_of_isName (named.2 input among)).capitalize
        exact Text.IsWord.append (by decide) word
      · cases takesParameters
        · exact absurd all List.not_mem_nil
        · obtain rfl := List.mem_singleton.mp all
          decide

theorem IsNamed.constructorParts {source : NameSource} (named : source.IsNamed) :
    ∀ part ∈ source.constructorParts, Text.IsWord part := by
  cases source with
  | fragment | operation | input => exact fun _ absent => absurd absent List.not_mem_nil
  | union name members => exact fun member among => isWord_of_isName (named.2 member among)
  | enum name values =>
      intro part member
      obtain ⟨value, among, rfl⟩ := List.mem_map.mp member
      exact (isWord_of_isName (named.2 value among)).lowercase.capitalize

/-- The name of the type decides about those of all types and constructors. -/
theorem IsFit.isTypeName_typeName {source : NameSource} (named : source.IsNamed)
    (fit : source.IsFit) : Elm.IsTypeName source.typeName := by
  have word := isWord_typeName named
  cases source with
  | union => exact (Elm.isTypeName_iff word).mpr fit
  | enum => exact (Elm.isTypeName_capitalize_iff (isWord_of_isName named.1)).mpr fit
  | fragment => exact (Elm.isTypeName_capitalize_iff (isWord_of_isName named)).mpr fit
  | operation =>
      exact (Elm.isTypeName_capitalize_iff (isWord_of_isName named.1)).mpr ⟨fit.1, fit.2.1⟩
  | input => exact (Elm.isTypeName_capitalize_iff (isWord_of_isName named)).mpr fit

theorem IsFit.isValueName {source : NameSource} (named : source.IsNamed) (fit : source.IsFit) :
    ∀ name ∈ source.valueNames, Elm.IsValueName name := by
  cases source with
  | union | fragment => exact fun _ absent => absurd absent List.not_mem_nil
  | enum name values =>
      have word := isWord_of_isName named.1
      have first : startsWith Char.isLower (lowercase name) = true := by
        rw [Text.startsWith_lowercase word]
        exact fit.1
      exact List.forall_mem_singleton.mpr (Elm.isValueName_append_decoder first word.lowercase)
  | operation title takesParameters inputs =>
      have word := isWord_of_isName named.1
      have first : startsWith Char.isLower (decapitalize (capitalize title)) = true := by
        rw [Text.decapitalize_capitalize word, Text.startsWith_decapitalize word]
        exact fit.1
      refine List.forall_mem_cons.mpr ⟨?_, List.forall_mem_singleton.mpr ?_⟩
      · exact (Elm.isValueName_decapitalize_iff word).mpr ⟨fit.1, fit.2.2⟩
      · exact Elm.isValueName_append_decoder first word.capitalize.decapitalize
  | input name =>
      exact List.forall_mem_singleton.mpr (Elm.isValueName_encoder (isWord_of_isName named))

/-- What is declared is legal exactly if the names that are given fit. -/
theorem legal_iff_isFit {source : NameSource} (named : source.IsNamed) :
    source.Legal ↔ source.IsFit := by
  constructor
  · intro legal
    have type : Elm.IsTypeName source.typeName := by
      refine legal.types _ ?_
      rw [typeNames_eq]
      exact List.mem_cons_self
    cases source with
    | union => exact (Elm.isTypeName_iff (isWord_of_isName named.1)).mp type
    | enum => exact (Elm.isTypeName_capitalize_iff (isWord_of_isName named.1)).mp type
    | fragment => exact (Elm.isTypeName_capitalize_iff (isWord_of_isName named)).mp type
    | input => exact (Elm.isTypeName_capitalize_iff (isWord_of_isName named)).mp type
    | operation title takesParameters inputs =>
        have word := isWord_of_isName named.1
        obtain ⟨first, free⟩ := (Elm.isTypeName_capitalize_iff word).mp type
        have value : Elm.IsValueName (decapitalize title) := legal.values _ List.mem_cons_self
        exact ⟨first, free, ((Elm.isValueName_decapitalize_iff word).mp value).2⟩
  · intro fit
    have type := fit.isTypeName_typeName named
    have suffixed {parts : List String} (words : ∀ part ∈ parts, Text.IsWord part) :
        ∀ name ∈ parts.map (Name.suffixed source.typeName), Elm.IsTypeName name := by
      intro name member
      obtain ⟨part, among, rfl⟩ := List.mem_map.mp member
      exact Elm.isTypeName_suffixed type.first type.word (words part among)
    refine ⟨fit.isValueName named, ?_, ?_⟩
    · rw [typeNames_eq]
      exact List.forall_mem_cons.mpr ⟨type, suffixed named.aliasParts⟩
    · rw [fit.constructorNames_eq]
      refine List.forall_mem_append.mpr ⟨?_, suffixed named.constructorParts⟩
      cases source with
      | input name => exact List.forall_mem_singleton.mpr type
      | union | enum | fragment | operation => exact fun _ absent => absurd absent List.not_mem_nil

/-! ### Families of names -/

/-- No base name goes on as another one does that has an underscore behind it. -/
def Apart (bases : List String) : Prop :=
  ∀ one ∈ bases, ∀ other ∈ bases, ¬ (one ++ "_").toList <+: other.toList

instance (bases : List String) : Decidable (Apart bases) :=
  inferInstanceAs (Decidable (∀ one ∈ bases, ∀ other ∈ bases, ¬ _ <+: _))

namespace Apart

variable {bases : List String} {one other part rest : String}

theorem suffixed_ne (apart : Apart bases) (first : one ∈ bases) (second : other ∈ bases) :
    Name.suffixed one part ≠ other := by
  rintro rfl
  refine apart one first _ second ?_
  rw [Name.suffixed, @String.toList_append (one ++ "_")]
  exact List.prefix_append _ _

/-- A base name that another one goes on is the same if an underscore follows it. -/
theorem eq_of_longer (apart : Apart bases) (first : one ∈ bases) (second : other ∈ bases)
    {more tail after : List Char} (longer : other.toList = one.toList ++ more)
    (goes : '_' :: tail = more ++ after) : one = other := by
  cases more with
  | nil => exact String.toList_injective (by simpa using longer.symm)
  | cons c more =>
      obtain rfl : '_' = c := (List.cons.inj goes).1
      refine absurd ?_ (apart one first other second)
      rw [longer, String.toList_append]
      exact ⟨more, by simp⟩

theorem suffixed_inj (apart : Apart bases) (first : one ∈ bases) (second : other ∈ bases)
    (same : Name.suffixed one part = Name.suffixed other rest) : one = other ∧ part = rest := by
  have letters : one.toList ++ ('_' :: part.toList) = other.toList ++ ('_' :: rest.toList) := by
    simpa [Name.suffixed] using congrArg String.toList same
  have base : one = other := by
    rcases List.append_eq_append_iff.mp letters with ⟨more, longer, goes⟩ | ⟨more, longer, goes⟩
    · exact apart.eq_of_longer first second longer goes
    · exact (apart.eq_of_longer second first longer goes).symm
  subst base
  exact ⟨rfl, Name.suffixed_injective one same⟩

end Apart

variable {sources : List NameSource}

/-- Parts behind base names that are apart make families of names that are apart. -/
theorem nodup_suffixed_iff (apart : Apart (sources.map typeName))
    (distinct : (sources.map typeName).Nodup) (parts : NameSource → List String) :
    (sources.flatMap fun source => (parts source).map (Name.suffixed source.typeName)).Nodup ↔
      ∀ source ∈ sources, (parts source).Nodup := by
  have separate : sources.Pairwise
      (Function.onFun List.Disjoint fun source =>
        (parts source).map (Name.suffixed source.typeName)) := by
    rw [List.Nodup, List.pairwise_map] at distinct
    refine distinct.imp_of_mem fun {one other} first second differ name left right => ?_
    obtain ⟨part, _, rfl⟩ := List.mem_map.mp left
    obtain ⟨rest, _, same⟩ := List.mem_map.mp right
    exact differ (apart.suffixed_inj (List.mem_map_of_mem first) (List.mem_map_of_mem second)
      same.symm).1
  rw [List.nodup_flatMap, and_iff_left separate]
  exact forall₂_congr fun source _ => List.nodup_map_iff (Name.suffixed_injective source.typeName)

/-- A family of names has none of the base names. -/
theorem notMem_suffixed (apart : Apart (sources.map typeName))
    (parts : NameSource → List String) {base : String} (among : base ∈ sources.map typeName) :
    base ∉ sources.flatMap fun source => (parts source).map (Name.suffixed source.typeName) := by
  intro member
  obtain ⟨source, there, inside⟩ := List.mem_flatMap.mp member
  obtain ⟨part, _, same⟩ := List.mem_map.mp inside
  exact apart.suffixed_ne (List.mem_map_of_mem there) among same

/-- Base names without repetition and families of names behind some of them. -/
theorem nodup_append_suffixed_iff (apart : Apart (sources.map typeName)) {bases : List String}
    (distinct : (sources.map typeName).Nodup) (some : bases.Sublist (sources.map typeName))
    (parts : NameSource → List String) :
    (bases ++ sources.flatMap fun source =>
        (parts source).map (Name.suffixed source.typeName)).Nodup ↔
      ∀ source ∈ sources, (parts source).Nodup := by
  rw [List.nodup_append, nodup_suffixed_iff apart distinct]
  refine ⟨fun both => both.2.1, fun each => ⟨distinct.sublist some, each, ?_⟩⟩
  rintro base among name member rfl
  exact notMem_suffixed apart parts (some.subset among) member

/-- The names of types differ if their base names do and each source has parts that do. -/
theorem nodup_typeNames_iff (apart : Apart (sources.map typeName)) :
    (sources.flatMap typeNames).Nodup ↔
      (sources.map typeName).Nodup ∧ ∀ source ∈ sources, source.aliasParts.Nodup := by
  have families : (sources.map typeName ++ sources.flatMap fun source =>
      source.aliasParts.map (Name.suffixed source.typeName)).Perm (sources.flatMap typeNames) := by
    rw [funext typeNames_eq]
    exact List.map_append_flatMap_perm _ _ _
  rw [← families.nodup_iff]
  constructor
  · intro distinct
    have bases := (List.nodup_append.mp distinct).1
    exact ⟨bases, (nodup_append_suffixed_iff apart bases (.refl _) _).mp distinct⟩
  · exact fun ⟨bases, each⟩ => (nodup_append_suffixed_iff apart bases (.refl _) _).mpr each

theorem ownConstructors_sublist (sources : List NameSource) :
    (sources.filterMap ownConstructor?).Sublist (sources.map typeName) := by
  induction sources with
  | nil => exact .slnil
  | cons source rest ih =>
      cases source with
      | input name => exact ih.cons_cons (capitalize name)
      | union | enum | fragment | operation => exact ih.cons _

/-- Where base names differ, the names of constructors differ if each source has parts that do. -/
theorem nodup_constructorNames_iff (fit : ∀ source ∈ sources, source.IsFit)
    (apart : Apart (sources.map typeName)) (distinct : (sources.map typeName).Nodup) :
    (sources.flatMap constructorNames).Nodup ↔
      ∀ source ∈ sources, source.constructorParts.Nodup := by
  have families : (sources.filterMap ownConstructor? ++ sources.flatMap fun source =>
      source.constructorParts.map (Name.suffixed source.typeName)).Perm
        (sources.flatMap constructorNames) := by
    rw [List.flatMap_congr fun source member => (fit source member).constructorNames_eq,
      List.filterMap_eq_flatMap_toList]
    exact List.flatMap_append_perm _ _ _
  rw [← families.nodup_iff]
  exact nodup_append_suffixed_iff apart distinct (ownConstructors_sublist sources) _

/-! ### Names of values -/

/-- The function that sends an operation. -/
def function? : NameSource → Option String
  | .operation title _ _ => some (decapitalize title)
  | .union _ _ | .enum _ _ | .fragment _ _ | .input _ => none

/-- What the name of a decoder begins with. -/
def stem? : NameSource → Option String
  | .operation title _ _ => some (decapitalize title)
  | .enum name _ => some (lowercase name)
  | .union _ _ | .fragment _ _ | .input _ => none

/-- The functions that send operations. -/
def functions (sources : List NameSource) : List String := sources.filterMap function?

/-- The decoders of operations and of enumerations. -/
def decoders (sources : List NameSource) : List String :=
  (sources.filterMap stem?).map (· ++ "Decoder")

/-- The encoders of input types. -/
def encoders (sources : List NameSource) : List String :=
  (sources.filterMap ownConstructor?).map ("encode" ++ ·)

/-- The names of all values: the address of the server, and those of the sources. -/
def allValueNames (sources : List NameSource) : List String :=
  "endpointUrl" :: sources.flatMap valueNames

theorem IsNamed.valueNames_eq {source : NameSource} (named : source.IsNamed) :
    source.valueNames = source.function?.toList ++
      ((source.stem?.map (· ++ "Decoder")).toList ++
        (source.ownConstructor?.map ("encode" ++ ·)).toList) := by
  cases source with
  | union | enum | fragment | input => rfl
  | operation title takesParameters inputs =>
      rw [valueNames, Name.decoder, Text.decapitalize_capitalize (isWord_of_isName named.1)]
      rfl

theorem valueNames_perm (named : ∀ source ∈ sources, source.IsNamed) :
    (sources.flatMap valueNames).Perm
      (functions sources ++ (decoders sources ++ encoders sources)) := by
  rw [List.flatMap_congr fun source member => (named source member).valueNames_eq, functions,
    decoders, encoders, List.map_filterMap, List.map_filterMap, List.filterMap_eq_flatMap_toList,
    List.filterMap_eq_flatMap_toList, List.filterMap_eq_flatMap_toList]
  have codecs := List.flatMap_append_perm sources
    (fun source => (source.stem?.map (· ++ "Decoder")).toList)
    (fun source => (source.ownConstructor?.map ("encode" ++ ·)).toList)
  exact (List.flatMap_append_perm _ _ _).symm.trans (codecs.symm.append_left _)

theorem functions_sublist (sources : List NameSource) :
    (functions sources).Sublist (sources.filterMap stem?) := by
  induction sources with
  | nil => exact .slnil
  | cons source rest ih =>
      cases source with
      | operation title takesParameters inputs => exact ih.cons_cons (decapitalize title)
      | enum name values => exact ih.cons (lowercase name)
      | union | fragment | input => exact ih

theorem endpointUrl_notMem_decoders (sources : List NameSource) :
    "endpointUrl" ∉ decoders sources := by
  intro member
  obtain ⟨stem, _, same⟩ := List.mem_map.mp member
  have ends : "Decoder".toList <:+ "endpointUrl".toList := by
    rw [← same, String.toList_append]
    exact List.suffix_append _ _
  exact absurd ends (by decide)

theorem endpointUrl_notMem_encoders (sources : List NameSource) :
    "endpointUrl" ∉ encoders sources := by
  intro member
  obtain ⟨input, _, same⟩ := List.mem_map.mp member
  have starts : "encode".toList <+: "endpointUrl".toList := by
    rw [← same, String.toList_append]
    exact List.prefix_append _ _
  exact absurd starts (by decide)

/-- What is told apart among the names that a source has beside its own: members of a union as they
are, values of an enumeration but for case, variables of an operation but for the case of the first
letter. -/
def parts : NameSource → List String
  | .union _ members => members
  | .enum _ values => values.map lowercase
  | .operation _ _ inputs => inputs.map capitalize
  | .fragment _ _ | .input _ => []

theorem nodup_parts_iff {source : NameSource} (named : source.IsNamed) :
    source.parts.Nodup ↔ source.aliasParts.Nodup ∧ source.constructorParts.Nodup := by
  cases source with
  | union name members => simp [parts, aliasParts, constructorParts]
  | enum name values =>
      have words (value : String) (member : value ∈ values) : Text.IsWord value :=
        isWord_of_isName (named.2 value member)
      refine Iff.trans ?_ (and_iff_right List.nodup_nil).symm
      simp only [parts, constructorParts, List.Nodup, List.pairwise_map]
      refine List.Pairwise.iff_of_mem fun {one other} first second => ?_
      exact not_congr (Text.capitalize_lowercase_inj (words one first) (words other second)).symm
  | fragment name isOpen => cases isOpen <;> simp [parts, aliasParts, constructorParts]
  | operation title takesParameters inputs =>
      have apart (input : String) : "Input_" ++ capitalize input ≠ "Input" := by
        intro same
        have letters := congrArg String.toList same
        simp at letters
      have front : Function.Injective ("Input_" ++ ·) :=
        fun _ _ same => (String.append_right_inj _).mp same
      have families : (inputs.map fun input => "Input_" ++ capitalize input).Nodup ↔
          (inputs.map capitalize).Nodup := by
        rw [← List.nodup_map_iff (l := inputs.map capitalize) front, List.map_map]
        rfl
      cases takesParameters
      · simp [parts, aliasParts, constructorParts, families]
      · simp [parts, aliasParts, constructorParts, families, List.nodup_append, apart]
  | input name => simp [parts, aliasParts, constructorParts]

/-- All names of sources are legal exactly if the names that are given fit. -/
theorem forall_legal_iff (named : ∀ source ∈ sources, source.IsNamed) :
    ((∀ name ∈ allValueNames sources, Elm.IsValueName name) ∧
      (∀ name ∈ sources.flatMap typeNames, Elm.IsTypeName name) ∧
        ∀ name ∈ sources.flatMap constructorNames, Elm.IsTypeName name) ↔
      ∀ source ∈ sources, source.IsFit := by
  have endpoint : Elm.IsValueName "endpointUrl" := by decide
  rw [allValueNames, List.forall_mem_cons, and_iff_right endpoint, List.forall_mem_flatMap,
    List.forall_mem_flatMap, List.forall_mem_flatMap]
  constructor
  · rintro ⟨values, types, constructors⟩ source member
    exact (legal_iff_isFit (named source member)).mp
      ⟨values source member, types source member, constructors source member⟩
  · intro fit
    have legal (source : NameSource) (member : source ∈ sources) : source.Legal :=
      (legal_iff_isFit (named source member)).mpr (fit source member)
    exact ⟨fun source member => (legal source member).values,
      fun source member => (legal source member).types,
      fun source member => (legal source member).constructors⟩

/-! ### Names that differ -/

/-- No two types, no two constructors and no two values share a name. -/
structure Distinct (sources : List NameSource) : Prop where
  types : (sources.map typeName).Nodup
  parts : ∀ source ∈ sources, source.parts.Nodup
  stems : (sources.filterMap stem?).Nodup
  endpoint : "endpointUrl" ∉ functions sources
  functions : ∀ name ∈ functions sources, name ∉ decoders sources ∧ name ∉ encoders sources
  decoders : ∀ name ∈ decoders sources, name ∉ encoders sources

instance (sources : List NameSource) : Decidable (Distinct sources) :=
  decidable_of_iff
    ((sources.map typeName).Nodup ∧ (∀ source ∈ sources, source.parts.Nodup) ∧
      (sources.filterMap stem?).Nodup ∧ "endpointUrl" ∉ NameSource.functions sources ∧
        (∀ name ∈ NameSource.functions sources,
          name ∉ NameSource.decoders sources ∧ name ∉ encoders sources) ∧
          ∀ name ∈ NameSource.decoders sources, name ∉ encoders sources)
    ⟨fun ⟨types, parts, stems, endpoint, functions, decoders⟩ =>
        ⟨types, parts, stems, endpoint, functions, decoders⟩,
      fun ⟨types, parts, stems, endpoint, functions, decoders⟩ =>
        ⟨types, parts, stems, endpoint, functions, decoders⟩⟩

/-- Where base names differ, the names of values differ if decoders and functions do. -/
theorem nodup_allValueNames_iff (named : ∀ source ∈ sources, source.IsNamed)
    (types : (sources.map typeName).Nodup) :
    (allValueNames sources).Nodup ↔ (sources.filterMap stem?).Nodup ∧
      "endpointUrl" ∉ functions sources ∧
        (∀ name ∈ functions sources, name ∉ decoders sources ∧ name ∉ encoders sources) ∧
          ∀ name ∈ decoders sources, name ∉ encoders sources := by
  have decoders_nodup : (decoders sources).Nodup ↔ (sources.filterMap stem?).Nodup :=
    List.nodup_map_iff fun _ _ same => (String.append_left_inj "Decoder").mp same
  have encoders_nodup : (encoders sources).Nodup :=
    (types.sublist (ownConstructors_sublist sources)).map
      fun _ _ same => (String.append_right_inj "encode").mp same
  have perm := valueNames_perm named
  rw [allValueNames, List.nodup_cons, perm.mem_iff, perm.nodup_iff, List.nodup_append,
    List.nodup_append, List.mem_append, List.mem_append, decoders_nodup]
  constructor
  · rintro ⟨endpoint, -, ⟨stems, -, decoders⟩, functions⟩
    refine ⟨stems, fun sends => endpoint (Or.inl sends), fun name sends => ⟨?_, ?_⟩, ?_⟩
    · exact fun decodes => functions name sends name (List.mem_append_left _ decodes) rfl
    · exact fun encodes => functions name sends name (List.mem_append_right _ encodes) rfl
    · exact fun name decodes encodes => decoders name decodes name encodes rfl
  · rintro ⟨stems, endpoint, functions, decoders⟩
    refine ⟨?_, stems.sublist (functions_sublist sources), ⟨stems, encoders_nodup, ?_⟩, ?_⟩
    · rintro (sends | decodes | encodes)
      · exact endpoint sends
      · exact endpointUrl_notMem_decoders sources decodes
      · exact endpointUrl_notMem_encoders sources encodes
    · rintro name decodes _ encodes rfl
      exact decoders name decodes encodes
    · rintro name sends _ member rfl
      rcases List.mem_append.mp member with decodes | encodes
      · exact (functions name sends).1 decodes
      · exact (functions name sends).2 encodes

/-- Where every source fits and base names are apart, the names of one class differ exactly if the
names do that they are made from. -/
theorem distinct_iff (named : ∀ source ∈ sources, source.IsNamed)
    (fit : ∀ source ∈ sources, source.IsFit) (apart : Apart (sources.map typeName)) :
    ((allValueNames sources).Nodup ∧ (sources.flatMap typeNames).Nodup ∧
      (sources.flatMap constructorNames).Nodup) ↔ Distinct sources := by
  constructor
  · rintro ⟨values, types, constructors⟩
    obtain ⟨bases, aliases⟩ := (nodup_typeNames_iff apart).mp types
    have constructed := (nodup_constructorNames_iff fit apart bases).mp constructors
    obtain ⟨stems, endpoint, functions, decoders⟩ :=
      (nodup_allValueNames_iff named bases).mp values
    refine ⟨bases, fun source member => ?_, stems, endpoint, functions, decoders⟩
    exact (nodup_parts_iff (named source member)).mpr ⟨aliases source member,
      constructed source member⟩
  · rintro ⟨bases, parts, stems, endpoint, functions, decoders⟩
    have each {source : NameSource} (member : source ∈ sources) :=
      (nodup_parts_iff (named source member)).mp (parts source member)
    exact ⟨(nodup_allValueNames_iff named bases).mpr ⟨stems, endpoint, functions, decoders⟩,
      (nodup_typeNames_iff apart).mpr ⟨bases, fun _ member => (each member).1⟩,
      (nodup_constructorNames_iff fit apart bases).mpr fun _ member => (each member).2⟩

end NameSource

end ElmClient
