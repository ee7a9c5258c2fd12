/-
Module: ElmClient.Proofs.Traversal
Purpose: Depth-first traversals of a graph in which every stop leads to others in an order. A tour
  follows every way and turns back only where it would come upon a stop of its own way again. A
  search follows no stop twice. What a search has visited in the end are the stops of the tour, in the
  order in which the tour first comes upon them.
Main exports: Traversal.Tour, Traversal.Tour.unique, Traversal.exists_tour, Traversal.Search,
  Traversal.Search.append, Traversal.Settled, Traversal.Search.settled, Traversal.Search.forall,
  Traversal.Search.eq_tour
-/
import ElmClient.Proofs.Occurrences

namespace ElmClient.Traversal

variable {α : Type} {next : α → List α}

/-- A tour through stops, on a way through other stops: it comes upon each of them and, unless that
stop is on the way, upon what it leads to. -/
inductive Tour (next : α → List α) : List α → List α → List α → Prop where
  | nil {way} : Tour next way [] []
  | back {way stop rest stops} (onWay : stop ∈ way) (after : Tour next way rest stops) :
      Tour next way (stop :: rest) (stop :: stops)
  | enter {way stop rest below stops} (off : stop ∉ way)
      (inside : Tour next (stop :: way) (next stop) below) (after : Tour next way rest stops) :
      Tour next way (stop :: rest) (stop :: (below ++ stops))

/-- A search through stops, after some were visited: a stop that was visited is passed by, and any
other one is visited and followed. -/
inductive Search (next : α → List α) : List α → List α → List α → Prop where
  | nil {visited} : Search next visited [] visited
  | known {visited stop rest result} (there : stop ∈ visited)
      (after : Search next visited rest result) : Search next visited (stop :: rest) result
  | enter {visited stop rest middle result} (fresh : stop ∉ visited)
      (inside : Search next (visited ++ [stop]) (next stop) middle)
      (after : Search next middle rest result) : Search next visited (stop :: rest) result

/-! ### Tours -/

/-- There is one tour. -/
theorem Tour.unique {way todo one : List α} (first : Tour next way todo one) :
    ∀ {other}, Tour next way todo other → other = one := by
  induction first with
  | nil =>
      intro other second
      cases second
      rfl
  | back onWay after ih =>
      intro other second
      cases second with
      | back _ after' => rw [ih after']
      | enter off => exact absurd onWay off
  | enter off inside after below later =>
      intro other second
      cases second with
      | back onWay => exact absurd onWay off
      | enter _ inside' after' => rw [below inside', later after']

/-- Every stop that is entered leaves fewer of the support off the way. -/
theorem length_off_lt [DecidableEq α] {support way : List α} {stop : α} (there : stop ∈ support)
    (off : stop ∉ way) :
    (support.filter (· ∉ stop :: way)).length < (support.filter (· ∉ way)).length := by
  have split : support.filter (· ∉ stop :: way) =
      (support.filter (· ∉ way)).filter (· ≠ stop) := by
    rw [List.filter_filter]
    refine List.filter_congr fun other _ => ?_
    by_cases same : other = stop <;> simp [same]
  rw [split]
  refine List.length_filter_lt_length_iff_exists.mpr ⟨stop, ?_, by simp⟩
  exact List.mem_filter.mpr ⟨there, by simpa using off⟩

/-- Where only finitely many stops lead anywhere, there is a tour. -/
theorem exists_tour [DecidableEq α] (support : List α)
    (ends : ∀ stop, stop ∉ support → next stop = []) (todo : List α) :
    ∃ stops, Tour next [] todo stops := by
  have bounded (limit : Nat) : ∀ way, (support.filter (· ∉ way)).length < limit →
      ∀ todo, ∃ stops, Tour next way todo stops := by
    induction limit with
    | zero => exact fun _ few => absurd few (Nat.not_lt_zero _)
    | succ limit ih =>
        intro way few todo
        induction todo with
        | nil => exact ⟨[], .nil⟩
        | cons stop rest later =>
            obtain ⟨stops, after⟩ := later
            by_cases onWay : stop ∈ way
            · exact ⟨_, .back onWay after⟩
            have inside : ∃ below, Tour next (stop :: way) (next stop) below := by
              by_cases leads : stop ∈ support
              · have fewer := length_off_lt leads onWay
                exact ih (stop :: way) (by omega) (next stop)
              · rw [ends stop leads]
                exact ⟨[], .nil⟩
            obtain ⟨below, inside⟩ := inside
            exact ⟨_, .enter onWay inside after⟩
  exact bounded _ [] (Nat.lt_succ_self _) todo

/-! ### Searches -/

theorem Search.append {visited middle result todo more : List α}
    (first : Search next visited todo middle) (second : Search next middle more result) :
    Search next visited (todo ++ more) result := by
  induction first with
  | nil => exact second
  | known there _ ih => exact .known there (ih second)
  | enter fresh inside _ _ ih => exact .enter fresh inside (ih second)

theorem Search.subset {visited todo result : List α} (search : Search next visited todo result) :
    visited ⊆ result := by
  induction search with
  | nil => exact List.Subset.refl _
  | known _ _ ih => exact ih
  | enter _ _ _ below later =>
      exact fun _ there => later (below (List.mem_append_left _ there))

/-- A search comes only upon stops with a property, where what they lead to has it as well. -/
theorem Search.forall {property : α → Prop}
    (leads : ∀ stop, property stop → ∀ other ∈ next stop, property other)
    {visited todo result : List α} (search : Search next visited todo result)
    (start : ∀ stop ∈ todo, property stop) (before : ∀ stop ∈ visited, property stop) :
    ∀ stop ∈ result, property stop := by
  induction search with
  | nil => exact before
  | known _ _ ih => exact ih (List.forall_mem_cons.mp start).2 before
  | enter _ _ _ below later =>
      obtain ⟨here, others⟩ := List.forall_mem_cons.mp start
      refine later others (below (leads _ here) fun stop there => ?_)
      rcases List.mem_append.mp there with old | new
      · exact before stop old
      · exact List.mem_singleton.mp new ▸ here

/-- What was visited on the way through some stops: the others have been followed to the end. -/
structure Settled (next : α → List α) (way visited : List α) : Prop where
  distinct : visited.Nodup
  within : way ⊆ visited
  closed : ∀ stop ∈ visited, stop ∉ way → next stop ⊆ visited

theorem Settled.empty : Settled next [] [] :=
  ⟨List.nodup_nil, List.Subset.refl _, fun _ absent => absurd absent List.not_mem_nil⟩

/-- A stop that is visited is on the way. -/
theorem Settled.enter {way visited : List α} {stop : α} (settled : Settled next way visited)
    (fresh : stop ∉ visited) : Settled next (stop :: way) (visited ++ [stop]) where
  distinct := by simpa using settled.distinct.concat fresh
  within := List.cons_subset.mpr
    ⟨List.mem_append_right _ List.mem_cons_self,
      fun _ onWay => List.mem_append_left _ (settled.within onWay)⟩
  closed other there off := by
    obtain ⟨apart, off'⟩ := not_or.mp (mt List.mem_cons.mpr off)
    have old := (List.mem_append.mp there).resolve_right (mt List.mem_singleton.mp apart)
    exact fun _ led => List.mem_append_left _ (settled.closed other old off' led)

/-- A stop that was followed to the end is on the way no more. -/
theorem Settled.leave {way visited : List α} {stop : α}
    (settled : Settled next (stop :: way) visited) (followed : next stop ⊆ visited) :
    Settled next way visited where
  distinct := settled.distinct
  within := (List.cons_subset.mp settled.within).2
  closed other there off := by
    by_cases same : other = stop
    · exact same ▸ followed
    · exact settled.closed other there fun onWay => (List.mem_cons.mp onWay).elim same off

/-- A search follows all stops that it visits to the end, and visits all that it is to visit. -/
theorem Search.settled {visited todo result : List α} (search : Search next visited todo result) :
    ∀ {way}, Settled next way visited → Settled next way result ∧ todo ⊆ result := by
  induction search with
  | nil => exact fun settled => ⟨settled, List.nil_subset _⟩
  | known there after ih =>
      intro way settled
      obtain ⟨settled', others⟩ := ih settled
      exact ⟨settled', List.cons_subset.mpr ⟨after.subset there, others⟩⟩
  | enter fresh inside after below later =>
      intro way settled
      obtain ⟨entered, followed⟩ := below (settled.enter fresh)
      obtain ⟨settled', others⟩ := later (entered.leave followed)
      have there := inside.subset (List.mem_append_right _ List.mem_cons_self)
      exact ⟨settled', List.cons_subset.mpr ⟨after.subset there, others⟩⟩

/-! ### Searches follow tours -/

/-- A tour through stops that were followed to the end comes upon nothing new. -/
theorem Tour.subset {way longer visited todo stops : List α} (tour : Tour next longer todo stops)
    (settled : Settled next way visited) :
    way ⊆ longer → todo ⊆ visited → stops ⊆ visited := by
  induction tour with
  | nil => exact fun _ _ => List.nil_subset _
  | back _ _ ih =>
      intro within there
      obtain ⟨here, others⟩ := List.cons_subset.mp there
      exact List.cons_subset.mpr ⟨here, ih within others⟩
  | enter off _ _ below later =>
      intro within there
      obtain ⟨here, others⟩ := List.cons_subset.mp there
      have led := settled.closed _ here fun onWay => off (within onWay)
      have inside := below (fun _ onWay => List.mem_cons_of_mem _ (within onWay)) led
      exact List.cons_subset.mpr ⟨here, List.append_subset.mpr ⟨inside, later within others⟩⟩

variable [BEq α] [LawfulBEq α]

/-- A search visits the stops of the tour in the order in which the tour first comes upon them. -/
theorem Search.eq_tour {visited todo result : List α} (search : Search next visited todo result) :
    ∀ {way stops}, Settled next way visited → Tour next way todo stops →
      result = (visited ++ stops).eraseDups := by
  induction search with
  | nil =>
      intro way stops settled tour
      cases tour
      rw [List.append_nil, Occurrences.eraseDups_of_nodup settled.distinct]
  | @known visited stop rest result there after ih =>
      intro way stops settled tour
      have here : [stop] ⊆ visited := List.cons_subset.mpr ⟨there, List.nil_subset _⟩
      cases tour with
      | back _ tour' =>
          rw [ih settled tour', ← Occurrences.eraseDups_append_append_of_subset here,
            List.append_assoc, List.singleton_append]
      | @enter _ _ _ below stops' off inside tour' =>
          have old : stop :: below ⊆ visited := List.cons_subset.mpr ⟨there,
            inside.subset settled (List.subset_cons_self _ _) (settled.closed stop there off)⟩
          rw [ih settled tour', ← Occurrences.eraseDups_append_append_of_subset old,
            List.append_assoc, List.cons_append]
  | @enter visited stop rest middle result fresh search after below later =>
      intro way stops settled tour
      have entered := settled.enter fresh
      obtain ⟨searched, followed⟩ := search.settled entered
      cases tour with
      | back onWay => exact absurd (settled.within onWay) fresh
      | enter _ inside tour' =>
          rw [later (searched.leave followed) tour', below entered inside,
            Occurrences.eraseDups_eraseDups_append]
          simp only [List.append_assoc, List.cons_append, List.nil_append]

end ElmClient.Traversal
