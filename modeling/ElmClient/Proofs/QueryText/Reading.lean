/-
Module: ElmClient.Proofs.QueryText.Reading
Purpose: What a reader takes from the text ahead of it and what it refuses, and how both are put
  together from the parts of a reader. The text ahead is followed as a whole, so that every
  statement says up to where a reader goes.
Main exports: Reader.Takes, Reader.Refuses, Reader.skipped, Reader.takes_token, Reader.takes_name,
  Reader.Chain, Reader.Takes.many, Reader.Takes.many1
-/
import ElmClient.Proofs.OperationNames

namespace ElmClient.GraphQL.Reader

variable {α β ι : Type}

/-- A reader goes from the text ahead to a rest of it, wherever that text stands and whatever was
reported before; it reports nothing, and what it reads satisfies a property. -/
def Takes (reader : Reader α) (ahead rest : List Char) (property : α → Prop) : Prop :=
  ∀ position fault, ∃ value position',
    reader.run ⟨ahead, position, fault⟩ = some (value, ⟨rest, position', fault⟩) ∧ property value

/-- A reader refuses the text ahead, wherever that stands. -/
def Refuses (reader : Reader α) (ahead : List Char) : Prop :=
  ∀ position fault, reader.run ⟨ahead, position, fault⟩ = none

/-! ### Sequences and choices -/

section

variable {ahead middle rest : List Char}

theorem Takes.imp {reader : Reader α} {stronger weaker : α → Prop}
    (takes : Takes reader ahead rest stronger) (implies : ∀ value, stronger value → weaker value) :
    Takes reader ahead rest weaker := by
  intro position fault
  obtain ⟨value, position', read, holds⟩ := takes position fault
  exact ⟨value, position', read, implies value holds⟩

theorem Takes.pure {property : α → Prop} {value : α} (holds : property value) :
    Takes (Pure.pure value) ahead ahead property :=
  fun position _ => ⟨value, position, rfl, holds⟩

theorem Takes.bind {first : Reader α} {next : α → Reader β} {earlier : α → Prop}
    {property : β → Prop} (one : Takes first ahead middle earlier)
    (two : ∀ value, earlier value → Takes (next value) middle rest property) :
    Takes (first >>= next) ahead rest property := by
  intro position fault
  obtain ⟨value, position', started, holds⟩ := one position fault
  obtain ⟨result, position'', finished, holds'⟩ := two value holds position' fault
  refine ⟨result, position'', ?_, holds'⟩
  rw [StateT.run_bind, started]
  exact finished

/-- A sequence in which the rest does not depend on what came first. -/
theorem Takes.andThen {first : Reader α} {next : α → Reader β} {earlier : α → Prop}
    {property : β → Prop} (one : Takes first ahead middle earlier)
    (two : ∀ value, Takes (next value) middle rest property) :
    Takes (first >>= next) ahead rest property :=
  one.bind fun value _ => two value

theorem Takes.map {reader : Reader α} {f : α → β} {property : β → Prop}
    (takes : Takes reader ahead rest fun value => property (f value)) :
    Takes (f <$> reader) ahead rest property := by
  rw [map_eq_pure_bind]
  exact takes.bind fun _ holds => .pure holds

theorem run_orElse (first second : Reader α) (cursor : Cursor) :
    (first <|> second).run cursor = (first.run cursor <|> second.run cursor) :=
  rfl

/-- A choice takes what its first reader takes. -/
theorem Takes.orElse {first : Reader α} {property : α → Prop}
    (takes : Takes first ahead rest property) (second : Reader α) :
    Takes (first <|> second) ahead rest property := by
  intro position fault
  obtain ⟨value, position', read, holds⟩ := takes position fault
  refine ⟨value, position', ?_, holds⟩
  rw [run_orElse, read]
  rfl

/-- A choice takes what its second reader takes, if the first one refuses it. -/
theorem Refuses.orElse {first second : Reader α} {property : α → Prop}
    (refuses : Refuses first ahead) (takes : Takes second ahead rest property) :
    Takes (first <|> second) ahead rest property := by
  intro position fault
  obtain ⟨value, position', read, holds⟩ := takes position fault
  refine ⟨value, position', ?_, holds⟩
  rw [run_orElse, refuses position fault, read]
  rfl

theorem Refuses.both {first second : Reader α} (one : Refuses first ahead)
    (two : Refuses second ahead) : Refuses (first <|> second) ahead := by
  intro position fault
  rw [run_orElse, one position fault, two position fault]
  rfl

theorem Refuses.bind {first : Reader α} (refuses : Refuses first ahead) (next : α → Reader β) :
    Refuses (first >>= next) ahead := by
  intro position fault
  rw [StateT.run_bind, refuses position fault]
  rfl

theorem Refuses.map {reader : Reader α} (refuses : Refuses reader ahead) (f : α → β) :
    Refuses (f <$> reader) ahead := by
  rw [map_eq_pure_bind]
  exact refuses.bind _

/-- A sequence refuses a text if what comes second refuses what the first reader leaves. -/
theorem Takes.refuses {first : Reader α} {next : α → Reader β} {earlier : α → Prop}
    (one : Takes first ahead middle earlier)
    (two : ∀ value, earlier value → Refuses (next value) middle) :
    Refuses (first >>= next) ahead := by
  intro position fault
  obtain ⟨value, position', started, holds⟩ := one position fault
  rw [StateT.run_bind, started]
  exact two value holds position' fault

@[simp] theorem failure_eq_none : (failure : Option α) = none := rfl

theorem refuses_failure : Refuses (failure : Reader α) ahead :=
  fun _ _ => rfl

theorem Takes.optional {reader : Reader α} {property : α → Prop}
    (takes : Takes reader ahead rest property) :
    Takes (optional reader) ahead rest fun found => ∃ value, found = some value ∧ property value :=
  (takes.imp fun value holds => ⟨value, rfl, holds⟩).map.orElse _

theorem Refuses.optional {reader : Reader α} (refuses : Refuses reader ahead) :
    Takes (optional reader) ahead ahead fun found => found = none :=
  (refuses.map some).orElse (.pure rfl)

theorem Refuses.orEmpty {reader : Reader (List α)} (refuses : Refuses reader ahead) :
    Takes (orEmpty reader) ahead ahead fun found => found = [] :=
  refuses.orElse (.pure rfl)

/-- A negation goes on where its reader fails, and takes nothing. -/
theorem run_without {reader : Reader α} {cursor : Cursor} (failed : reader.run cursor = none) :
    (without reader).run cursor = some ((), cursor) := by
  simp [without, failed]

theorem Refuses.without {reader : Reader α} (refuses : Refuses reader ahead) :
    Takes (without reader) ahead ahead fun _ => True :=
  fun position fault => ⟨(), position, run_without (refuses position fault), trivial⟩

/-- A negation refuses what its reader takes. -/
theorem Takes.refuses_without {reader : Reader α} {property : α → Prop}
    (takes : Takes reader ahead rest property) : Refuses (without reader) ahead := by
  intro position fault
  obtain ⟨value, position', read, _⟩ := takes position fault
  simp [Reader.without, read]

end

/-! ### Tokens -/

/-- The text from the next token on. -/
def skipped (text : List Char) : List Char := (skipIgnored false text .start).1

/-- The rest after what may stand between tokens does not depend on the place. -/
theorem skipIgnored_fst (inComment : Bool) (text : List Char) (first second : Position) :
    (skipIgnored inComment text first).1 = (skipIgnored inComment text second).1 := by
  induction text generalizing inComment first second with
  | nil => rfl
  | cons c rest ih =>
      cases inComment with
      | true => exact ih _ _ _
      | false =>
          simp only [skipIgnored, Bool.false_eq_true, if_false]
          split
          · exact ih _ _ _
          · split
            · exact ih _ _ _
            · rfl

@[simp] theorem skipped_nil : skipped [] = [] := rfl

@[simp] theorem skipped_space (text : List Char) : skipped (' ' :: text) = skipped text :=
  skipIgnored_fst false text _ _

@[simp] theorem skipped_comma (text : List Char) : skipped (',' :: text) = skipped text :=
  skipIgnored_fst false text _ _

theorem length_skipped_le (text : List Char) : (skipped text).length ≤ text.length := by
  have each (inComment : Bool) (position : Position) :
      (skipIgnored inComment text position).1.length ≤ text.length := by
    induction text generalizing inComment position with
    | nil => exact Nat.le_refl _
    | cons c rest ih =>
        have later (inComment : Bool) (position : Position) :
            (skipIgnored inComment rest position).1.length ≤ (c :: rest).length :=
          Nat.le_succ_of_le (ih inComment position)
        unfold skipIgnored
        split
        · exact later _ _
        · split
          · exact later _ _
          · split
            · exact later _ _
            · exact Nat.le_refl _
  exact each false .start

/-- Whether a token may start with a character. -/
def isSolid (c : Char) : Bool := !isIgnored c && c != '#'

theorem skipped_of_isSolid {c : Char} (solid : isSolid c = true) (text : List Char) :
    skipped (c :: text) = c :: text := by
  obtain ⟨kept, noComment⟩ := Bool.and_eq_true_iff.mp solid
  have kept' : isIgnored c = false := by simpa using kept
  have noComment' : (c == '#') = false := by simpa using noComment
  simp [skipped, skipIgnored, kept', noComment']

/-- A token may start with a character that passes a test which nothing between tokens passes. -/
theorem isSolid_of_test {test : Char → Bool} {c : Char} (passes : test c = true)
    (never : ∀ d ∈ [' ', ',', '\t', '\n', '\r', '\ufeff', '#'], test d = false) :
    isSolid c = true := by
  have apart (d : Char) (other : test d = false) : (c == d) = false := by
    refine beq_eq_false_iff_ne.mpr fun same => ?_
    rw [same, other] at passes
    exact Bool.false_ne_true passes
  simp only [List.forall_mem_cons] at never
  obtain ⟨space, comma, tab, feed, carriage, mark, comment, _⟩ := never
  simp [isSolid, isIgnored, bne, apart _ space, apart _ comma, apart _ tab, apart _ feed,
    apart _ carriage, apart _ mark, apart _ comment]

theorem isSolid_of_startsName {c : Char} (starts : startsName c = true) : isSolid c = true :=
  isSolid_of_test starts (by decide)

/-- What may stand between tokens stands nowhere before the next token. -/
theorem skipped_skipped (text : List Char) : skipped (skipped text) = skipped text := by
  have each (inComment : Bool) (position : Position) :
      skipped (skipIgnored inComment text position).1 =
        (skipIgnored inComment text position).1 := by
    induction text generalizing inComment position with
    | nil => rfl
    | cons c rest ih =>
        unfold skipIgnored
        split
        · exact ih _ _
        · split
          · exact ih _ _
          · split
            · exact ih _ _
            · next kept noComment =>
                exact skipped_of_isSolid (by simp [isSolid, bne, kept, noComment]) rest
  exact each false .start

section

variable {ahead rest : List Char}

theorem takes_skip : Takes skip ahead (skipped ahead) fun _ => True := by
  intro position fault
  refine ⟨(), (skipIgnored false ahead position).2, ?_, trivial⟩
  show some ((), (⟨(skipIgnored false ahead position).1, _, fault⟩ : Cursor)) = _
  rw [skipIgnored_fst false ahead position .start]
  rfl

theorem takes_get : Takes (get : Reader Cursor) ahead ahead fun cursor => cursor.rest = ahead :=
  fun position _ => ⟨_, position, rfl, rfl⟩

/-- A reader that looks at where it stands. -/
theorem takes_state {next : Cursor → Reader α} {property : α → Prop}
    (takes : ∀ position fault, ∃ value position',
      (next ⟨ahead, position, fault⟩).run ⟨ahead, position, fault⟩ =
        some (value, ⟨rest, position', fault⟩) ∧ property value) :
    Takes (get >>= next) ahead rest property :=
  takes

theorem takes_here : Takes here ahead (skipped ahead) fun _ => True :=
  takes_skip.andThen fun _ => takes_get.andThen fun _ => .pure trivial

theorem dropWord?_append (word text : List Char) : dropWord? word (word ++ text) = some text := by
  induction word with
  | nil => rfl
  | cons c word ih => simp [dropWord?, ih]

theorem append_of_dropWord? {word text rest : List Char}
    (dropped : dropWord? word text = some rest) : text = word ++ rest := by
  induction word generalizing text with
  | nil => exact Option.some.inj dropped
  | cons c word ih =>
      cases text with
      | nil => exact absurd dropped.symm (Option.some_ne_none _)
      | cons d text =>
          unfold dropWord? at dropped
          split at dropped
          · next same => rw [ih dropped, beq_iff_eq.mp same, List.cons_append]
          · exact absurd dropped.symm (Option.some_ne_none _)

/-- A text that does not start with a word has no part in front that does. -/
theorem dropWord?_of_append {word text rest : List Char}
    (apart : dropWord? word (text ++ rest) = none) : dropWord? word text = none := by
  induction word generalizing text with
  | nil => exact absurd apart (Option.some_ne_none _)
  | cons c word ih =>
      cases text with
      | nil => rfl
      | cons d text =>
          simp only [List.cons_append, dropWord?] at apart ⊢
          split
          · next same =>
              rw [if_pos same] at apart
              exact ih apart
          · rfl

/-- A word is not read where something else than its first letter stands. -/
theorem dropWord?_of_head {c : Char} {word text : List Char} (apart : text.head? ≠ some c) :
    dropWord? (c :: word) text = none := by
  cases text with
  | nil => rfl
  | cons d more =>
      have apart' : c ≠ d := fun same => apart (congrArg some same.symm)
      simp [dropWord?, apart']

theorem takes_exactly {word : String} (starts : dropWord? word.toList ahead = some rest) :
    Takes (exactly word) ahead rest fun _ => True := by
  refine takes_state fun position fault => ?_
  simp only [starts]
  exact ⟨(), _, rfl, trivial⟩

theorem refuses_exactly {word : String} (apart : dropWord? word.toList ahead = none) :
    Refuses (exactly word) ahead := by
  refine takes_get.refuses fun cursor here => ?_
  rw [here, apart]
  exact refuses_failure

theorem takes_token {word : String} (starts : dropWord? word.toList (skipped ahead) = some rest) :
    Takes (token word) ahead rest fun _ => True :=
  takes_skip.andThen fun _ => takes_exactly starts

theorem refuses_token {word : String} (apart : dropWord? word.toList (skipped ahead) = none) :
    Refuses (token word) ahead :=
  takes_skip.refuses fun _ _ => refuses_exactly apart

/-- A word is refused where something else than its first letter stands. -/
theorem refuses_exactly_of_head (word : String) {c : Char} {more : List Char}
    (letters : word.toList = c :: more) (apart : ahead.head? ≠ some c) :
    Refuses (exactly word) ahead :=
  refuses_exactly (by rw [letters]; exact dropWord?_of_head apart)

theorem refuses_token_of_head (word : String) {c : Char} {more : List Char}
    (letters : word.toList = c :: more) (apart : (skipped ahead).head? ≠ some c) :
    Refuses (token word) ahead :=
  takes_skip.refuses fun _ _ => refuses_exactly_of_head word letters apart

/-! ### Names -/

/-- The characters that may stand right after a name, a number or a string: they go on none of
them. -/
def delimiters : List Char := [' ', ',', ':', '(', ')', '[', ']', '\x7b', '\x7d', '!']

/-- A text before which a name, a number or a string ends. -/
def Ends (rest : List Char) : Prop := ∀ c ∈ rest.head?, c ∈ delimiters

theorem Ends.nil : Ends [] := by simp [Ends]

theorem Ends.cons {c : Char} (delimits : c ∈ delimiters) (rest : List Char) :
    Ends (c :: rest) := by
  intro d same
  obtain rfl := Option.some.inj same
  exact delimits

/-- What no delimiter passes, the first character of such a text does not. -/
theorem Ends.not (ends : Ends rest) (test : Char → Bool)
    (never : ∀ c ∈ delimiters, test c = false) {c : Char} (first : rest.head? = some c) :
    test c = false :=
  never c (ends c first)

/-- A text before which a token ends, and where none of some characters stands next. -/
def Clear (chars rest : List Char) : Prop := Ends rest ∧ ∀ c ∈ (skipped rest).head?, c ∉ chars

theorem Clear.head {chars : List Char} (clear : Clear chars rest) {c : Char} (member : c ∈ chars) :
    (skipped rest).head? ≠ some c :=
  fun first => clear.2 c first member

theorem Clear.mono {chars fewer : List Char} (clear : Clear chars rest) (within : fewer ⊆ chars) :
    Clear fewer rest :=
  ⟨clear.1, fun c first member => clear.2 c first (within member)⟩

/-- A text that goes on with a token after a space. -/
theorem Clear.of_space {chars : List Char} {c : Char} (solid : isSolid c = true)
    (apart : c ∉ chars) (text : List Char) : Clear chars (' ' :: c :: text) := by
  refine ⟨.cons (by decide) _, ?_⟩
  rw [skipped_space, skipped_of_isSolid solid]
  rintro d ⟨⟩
  exact apart

/-- A text that goes on with a token right away. -/
theorem Clear.of_solid {chars : List Char} {c : Char} (delimits : c ∈ delimiters)
    (solid : isSolid c = true) (apart : c ∉ chars) (text : List Char) : Clear chars (c :: text) := by
  refine ⟨.cons delimits _, ?_⟩
  rw [skipped_of_isSolid solid]
  rintro d ⟨⟩
  exact apart

theorem takes_nameHere {name : String} (legal : isName name = true) (ends : Ends rest) :
    Takes nameHere (name.toList ++ rest) rest fun read => read = name := by
  obtain ⟨c, more, letters, starts, continues⟩ := letters_of_isName legal
  have stops : rest.takeWhile continuesName = [] ∧ rest.dropWhile continuesName = rest := by
    cases rest with
    | nil => exact ⟨rfl, rfl⟩
    | cons d _ => simp [ends.not continuesName (by decide) rfl]
  have taken : (more ++ rest).takeWhile continuesName = more := by
    rw [List.takeWhile_append_of_pos continues, stops.1, List.append_nil]
  have left : (more ++ rest).dropWhile continuesName = rest := by
    rw [List.dropWhile_append_of_pos continues, stops.2]
  have whole : String.ofList (c :: more) = name := by
    rw [← letters, String.ofList_toList]
  rw [letters]
  refine takes_state fun position fault => ?_
  simp only [List.cons_append, starts, if_true, taken, left, whole]
  exact ⟨name, _, rfl, rfl⟩

theorem refuses_nameHere (apart : ∀ c ∈ ahead.head?, startsName c = false) :
    Refuses nameHere ahead := by
  intro position fault
  cases ahead with
  | nil => rfl
  | cons c more =>
      have other : startsName c = false := apart c rfl
      simp [nameHere, other]

theorem takes_name {name : String} (legal : isName name = true) (ends : Ends rest)
    (starts : skipped ahead = name.toList ++ rest) :
    Takes GraphQL.Reader.name ahead rest fun read => read = name :=
  takes_skip.andThen fun _ => starts ▸ takes_nameHere legal ends

theorem refuses_name (apart : ∀ c ∈ (skipped ahead).head?, startsName c = false) :
    Refuses GraphQL.Reader.name ahead :=
  takes_skip.refuses fun _ _ => refuses_nameHere apart

/-- A name is a token. -/
theorem skipped_name {name : String} (legal : isName name = true) (text : List Char) :
    skipped (name.toList ++ text) = name.toList ++ text := by
  obtain ⟨c, more, letters, starts, _⟩ := letters_of_isName legal
  rw [letters]
  exact skipped_of_isSolid (isSolid_of_startsName starts) _

end

/-! ### Repetitions -/

/-- A reader takes one item after another, each of them shorter than what is ahead, and then
refuses the rest. -/
inductive Chain (reader : Reader α) (property : ι → α → Prop) :
    List ι → List Char → List Char → Prop where
  | nil {ahead : List Char} (refuses : Refuses reader ahead) : Chain reader property [] ahead ahead
  | cons {item : ι} {items : List ι} {ahead middle rest : List Char}
      (takes : Takes reader ahead middle (property item)) (shorter : middle.length < ahead.length)
      (later : Chain reader property items middle rest) :
      Chain reader property (item :: items) ahead rest

namespace Chain

variable {reader : Reader α} {property : ι → α → Prop} {items : List ι} {ahead rest : List Char}

theorem length_le (chain : Chain reader property items ahead rest) :
    items.length + rest.length ≤ ahead.length := by
  induction chain with
  | nil => simp
  | cons _ shorter _ ih =>
      rw [List.length_cons]
      omega

/-- A bound on the number of items that is not below it does not change what is read. -/
theorem upTo (chain : Chain reader property items ahead rest) {count : Nat}
    (enough : items.length ≤ count) :
    Takes (upTo reader count) ahead rest fun values => List.Forall₂ property items values := by
  induction chain generalizing count with
  | nil refuses =>
      cases count with
      | zero => exact .pure .nil
      | succ count => exact (refuses.bind _).orElse (.pure .nil)
  | cons takes _ _ ih =>
      cases count with
      | zero => exact absurd enough (by simp)
      | succ count =>
          refine Takes.orElse (takes.bind fun first holds => ?_) _
          refine (ih (Nat.le_of_succ_le_succ enough)).bind fun more later => .pure ?_
          exact .cons holds later

end Chain

section

variable {reader : Reader α} {property : ι → α → Prop} {items : List ι} {ahead rest : List Char}

theorem Takes.many (chain : Chain reader property items ahead rest) :
    Takes (many reader) ahead rest fun values => List.Forall₂ property items values := by
  have enough : items.length ≤ ahead.length := Nat.le_of_add_right_le chain.length_le
  refine takes_get.bind fun cursor here => ?_
  rw [here]
  exact chain.upTo enough

theorem Refuses.many (refuses : Refuses reader rest) :
    Takes (many reader) rest rest fun values => values = [] := by
  refine takes_get.bind fun cursor _ => ?_
  cases cursor.rest.length with
  | zero => exact .pure rfl
  | succ count => exact (refuses.bind _).orElse (.pure rfl)

theorem Takes.many1 {item : ι} (chain : Chain reader property (item :: items) ahead rest) :
    Takes (many1 reader) ahead rest fun values =>
      List.Forall₂ property (item :: items) values := by
  cases chain with
  | cons takes _ later =>
      refine takes.bind fun first holds => (Takes.many later).bind fun more holds' => .pure ?_
      exact .cons holds holds'

end

/-! ### Spellings -/

/-- A text is how a reader wants something to be written: it starts a token, and from before it the
reader goes to any rest that may follow. -/
structure Spells (reader : Reader α) (text : List Char) (follow : List Char → Prop)
    (property : α → Prop) : Prop where
  filled : text ≠ []
  solid : ∀ rest, skipped (text ++ rest) = text ++ rest
  takes : ∀ {ahead rest}, follow rest → skipped ahead = text ++ rest →
    Takes reader ahead rest property

section

variable {reader : Reader α} {property : ι → α → Prop} {items : List ι} {rest : List Char}
  {text : ι → List Char} {gap : List Char} {follow : List Char → Prop}

/-- A text with a gap between its parts has one in front of each part but the first. -/
theorem intercalate_cons (gap first : List Char) (others : List (List Char)) :
    gap.intercalate (first :: others) = first ++ others.flatMap (gap ++ ·) := by
  induction others generalizing first with
  | nil => simp [List.intercalate]
  | cons next others ih =>
      rw [List.intercalate_cons_cons, ih, List.flatMap_cons, List.append_assoc, List.append_assoc]

theorem length_le_flatMap (text : ι → List Char) {items : List ι} {item : ι}
    (member : item ∈ items) : (text item).length ≤ (items.flatMap text).length := by
  rw [List.flatMap_def]
  exact (List.sublist_flatten_of_mem (List.mem_map_of_mem member)).length_le

theorem length_le_intercalate (gap : List Char) {part : List Char} {parts : List (List Char)}
    (member : part ∈ parts) : part.length ≤ (gap.intercalate parts).length := by
  cases parts with
  | nil => exact absurd member List.not_mem_nil
  | cons first others =>
      rw [intercalate_cons, List.length_append]
      rcases List.mem_cons.mp member with rfl | later
      · exact Nat.le_add_right _ _
      · have within := length_le_flatMap (gap ++ ·) later
        rw [List.length_append] at within
        omega

/-- What may follow an item may do so where more items come first. -/
theorem follow_flatMap (continues : ∀ item ∈ items, ∀ tail, follow (gap ++ (text item ++ tail)))
    (ends : follow rest) : follow (items.flatMap (fun item => gap ++ text item) ++ rest) := by
  cases items with
  | nil => exact ends
  | cons next more =>
      simp only [List.flatMap_cons, List.append_assoc]
      exact continues next List.mem_cons_self _

/-- Items are read one after another where each of them is spelled and has a gap in front. -/
theorem Chain.of_spelled (each : ∀ item ∈ items, Spells reader (text item) follow (property item))
    (skips : ∀ text, skipped (gap ++ text) = skipped text)
    (continues : ∀ item ∈ items, ∀ tail, follow (gap ++ (text item ++ tail)))
    (ends : follow rest) (refuses : Refuses reader rest) :
    Chain reader property items (items.flatMap (fun item => gap ++ text item) ++ rest) rest := by
  induction items with
  | nil => exact .nil refuses
  | cons item items ih =>
      obtain ⟨spelled, spelledLater⟩ := List.forall_mem_cons.mp each
      obtain ⟨_, continuesLater⟩ := List.forall_mem_cons.mp continues
      have follows := follow_flatMap continuesLater ends
      have here : skipped ((gap ++ text item) ++ (items.flatMap (fun item => gap ++ text item) ++
          rest)) = text item ++ (items.flatMap (fun item => gap ++ text item) ++ rest) := by
        rw [List.append_assoc, skips, spelled.solid]
      have positive : 0 < (text item).length := List.length_pos_iff.mpr spelled.filled
      rw [List.flatMap_cons, List.append_assoc]
      refine .cons (spelled.takes follows here) ?_ (ih spelledLater continuesLater)
      simp only [List.length_append]
      omega

/-- The same where the gap only stands between the items. -/
theorem Chain.of_intercalated
    (each : ∀ item ∈ items, Spells reader (text item) follow (property item))
    (skips : ∀ text, skipped (gap ++ text) = skipped text)
    (continues : ∀ item ∈ items, ∀ tail, follow (gap ++ (text item ++ tail)))
    (ends : follow rest) (refuses : Refuses reader rest) :
    Chain reader property items (gap.intercalate (items.map text) ++ rest) rest := by
  cases items with
  | nil => exact .nil refuses
  | cons item items =>
      obtain ⟨spelled, spelledLater⟩ := List.forall_mem_cons.mp each
      obtain ⟨_, continuesLater⟩ := List.forall_mem_cons.mp continues
      have follows := follow_flatMap continuesLater ends
      have positive : 0 < (text item).length := List.length_pos_iff.mpr spelled.filled
      rw [List.map_cons, intercalate_cons, List.flatMap_map, List.append_assoc]
      refine .cons (spelled.takes follows (spelled.solid _)) ?_
        (.of_spelled spelledLater skips continuesLater ends refuses)
      simp only [List.length_append]
      omega

end

end ElmClient.GraphQL.Reader
