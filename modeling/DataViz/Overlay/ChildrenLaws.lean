/-
# What paging a draft's children serves

The pages that following the positions yields hold main's listing without what the draft
took away, the head of what it gives beside main's first page, and the rest of it. That is
compared with the children in the composed state.
-/

import DataViz.Overlay.Children

namespace DataViz.Overlay

open List Option

open Versioning

section

variable {items added : List String}

theorem foldl_add_new (nodup : added.Nodup) :
    added.foldl (fun items urn => if urn ∈ items then items else items ++ [urn]) items =
      items ++ added.filter fun urn => urn ∉ items := by
  induction added generalizing items with
  | nil => simp
  | cons urn rest ih =>
    obtain ⟨fresh, nodupRest⟩ := nodup_cons.mp nodup
    rw [foldl_cons]
    by_cases old : urn ∈ items
    · rw [if_pos old, ih nodupRest, filter_cons_of_neg (by simpa using old)]
    · rw [if_neg old, ih nodupRest, filter_cons_of_pos (by simpa using old),
        append_assoc, singleton_append]
      congr 2
      apply filter_congr
      intro other mem
      have distinct : other ≠ urn := fun same => fresh (same ▸ mem)
      simp [distinct]

namespace OverlayDelta

variable {delta : OverlayDelta} {main : Main} {loaded : List String}

theorem perm_servable (serve : List String)
    (found : ∀ urn ∈ serve, delta.Known loaded urn ∨ urn ∈ main.nodes) :
    (delta.servable main loaded serve).Perm serve := by
  have moved : (serve.filter fun urn => ¬ delta.Known loaded urn).filter
      (fun urn => urn ∈ main.nodes) = serve.filter fun urn => ¬ delta.Known loaded urn := by
    apply filter_eq_self.mpr
    intro urn mem
    obtain ⟨served, unknown⟩ := mem_filter.mp mem
    exact decide_eq_true ((found urn served).resolve_left (of_decide_eq_true unknown))
  rw [servable, moved]
  simpa using filter_append_perm (fun urn => decide (delta.Known loaded urn)) serve

theorem perm_composePage {base serve : List String} (nodup : serve.Nodup)
    (found : ∀ urn ∈ serve, delta.Known loaded urn ∨ urn ∈ main.nodes) :
    (delta.composePage base (delta.servable main loaded serve)).Perm
      ((base.filter fun urn => urn ∉ delta.nodeRemove) ++
        serve.filter fun urn => urn ∉ base.filter fun urn => urn ∉ delta.nodeRemove) := by
  have same := delta.perm_servable serve found
  rw [composePage, foldl_add_new (same.nodup_iff.mpr nodup)]
  exact (same.filter _).append_left _

end OverlayDelta

end

section

variable {delta : OverlayDelta} {casefold : String → String} {loaded : List String}
  {parent child : String}

theorem mem_gained : child ∈ (delta.parentDelta casefold loaded parent).gained ↔
    child ∈ OverlayDelta.childrenOf parent delta.contAdded ∧ child ∉ delta.nodeRemove := by
  rw [OverlayDelta.parentDelta]
  simp only [mem_append, (perm_insertionSort _ _).mem_iff, mem_filter, mem_dedup, decide_eq_true_eq]
  tauto

theorem nodup_gained : (delta.parentDelta casefold loaded parent).gained.Nodup := by
  have targets := nodup_dedup (OverlayDelta.childrenOf parent delta.contAdded)
  refine nodup_append.mpr ⟨?_, ?_, ?_⟩
  · exact (perm_insertionSort _ _).nodup_iff.mpr ((targets.filter _).filter _)
  · exact (perm_insertionSort _ _).nodup_iff.mpr ((targets.filter _).filter _)
  · rintro first known second unknown rfl
    rw [(perm_insertionSort _ _).mem_iff, mem_filter] at known unknown
    exact of_decide_eq_true unknown.2 (of_decide_eq_true known.2)

theorem mem_gone : child ∈ (delta.parentDelta casefold loaded parent).gone ↔
    child ∈ OverlayDelta.childrenOf parent delta.contRemoved ∧
      child ∉ OverlayDelta.childrenOf parent delta.contAdded := by
  rw [OverlayDelta.parentDelta]
  simp

/-- What is given back is not gone. -/
theorem notMem_gone_of_mem_gained
    (gained : child ∈ (delta.parentDelta casefold loaded parent).gained) :
    child ∉ (delta.parentDelta casefold loaded parent).gone :=
  fun gone => (mem_gone.mp gone).2 (mem_gained.mp gained).1

end

section

variable {α : Type} [DecidableEq α] {front back head rest : List α}

/-- Two listings of distinct items, each cut in two, the second's head without the first's
front: an item of both is served once exactly when it is in that head and that front. -/
theorem nodup_weave (listed : (front ++ back).Nodup) (gained : (head ++ rest).Nodup) :
    ((front ++ head.filter fun item => item ∉ front) ++ (back ++ rest)).Nodup ↔
      ∀ item ∈ head ++ rest, item ∈ front ++ back → item ∈ head ∧ item ∈ front := by
  simp only [nodup_append, mem_append, mem_filter, decide_eq_true_eq, ne_eq] at *
  constructor
  · grind
  · intro shared
    refine ⟨⟨listed.1, gained.1.filter _, ?_⟩, ⟨listed.2.1, gained.2.1, ?_⟩, ?_⟩ <;> grind

theorem mem_weave {item : α} :
    item ∈ (front ++ head.filter fun item => item ∉ front) ++ (back ++ rest) ↔
      item ∈ front ++ back ∨ item ∈ head ++ rest := by
  simp only [mem_append, mem_filter, decide_eq_true_eq]
  tauto

theorem length_add_count {first second all : List α} {gone : α → Prop} [DecidablePred gone]
    (nodupFirst : first.Nodup) (nodupSecond : second.Nodup) (nodupAll : all.Nodup)
    (mem : ∀ item, item ∈ all ↔ item ∈ first ∧ ¬ gone item ∨ item ∈ second) :
    all.length + (first.filter fun item => gone item ∨ item ∈ second).length =
      first.length + second.length := by
  have perm : all.Perm ((first.filter fun item => ¬ (gone item ∨ item ∈ second)) ++ second) := by
    rw [perm_ext_iff_of_nodup nodupAll]
    · intro item
      rw [mem, mem_append, mem_filter, decide_eq_true_eq]
      tauto
    · refine nodup_append.mpr ⟨nodupFirst.filter _, nodupSecond, ?_⟩
      rintro item kept _ given rfl
      exact (of_decide_eq_true (mem_filter.mp kept).2) (.inr given)
  have parts := (filter_append_perm
    (fun item => decide (gone item ∨ item ∈ second)) first).length_eq
  have total := perm.length_eq
  rw [length_append] at parts total
  simp only [decide_not] at total
  omega

end

section

variable {read : Position → ChildrenPage} {position : Position} {children : List String}
  {total : ℕ}

/-- From a position the pages end, serve these children, and all report this total. -/
def Yields (read : Position → ChildrenPage) (position : Position) (children : List String)
    (total : ℕ) : Prop :=
  ∃ fuel pages, follow read fuel position = some pages ∧
    (pages.flatMap ChildrenPage.children).Perm children ∧
    ∀ page ∈ pages, page.totalChildren = total

theorem yields_last (last : (read position).hasMore = false)
    (served : (read position).children.Perm children)
    (reports : (read position).totalChildren = total) : Yields read position children total := by
  refine ⟨1, [read position], ?_, ?_, ?_⟩
  · simp [follow, last]
  · simpa using served
  · simpa using reports

theorem yields_more {items : List String} (more : (read position).hasMore = true)
    (served : (read position).children.Perm items)
    (reports : (read position).totalChildren = total)
    (onward : Yields read (read position).next children total) :
    Yields read position (items ++ children) total := by
  obtain ⟨fuel, pages, followed, rest, reported⟩ := onward
  refine ⟨fuel + 1, read position :: pages, ?_, ?_, ?_⟩
  · simp [follow, more, followed]
  · exact served.append rest
  · exact forall_mem_cons.mpr ⟨reports, reported⟩

theorem follow_ne_nil {fuel : ℕ} {pages : List ChildrenPage}
    (followed : follow read fuel position = some pages) : pages ≠ [] := by
  cases fuel with
  | zero => cases followed
  | succ fuel =>
    rw [follow] at followed
    split at followed
    · obtain ⟨rest, -, rfl⟩ := map_eq_some_iff.mp followed
      exact cons_ne_nil _ _
    · cases followed
      exact cons_ne_nil _ _

end

section

variable {delta : OverlayDelta} {casefold : String → String} {main : Main}
  {listing loaded : List String} {parent : String} {limit : ℕ}

/-- A child of main's listing stays on its page. -/
def Keeps (delta : OverlayDelta) (gone : List String) (child : String) : Prop :=
  child ∉ gone ∧ child ∉ delta.nodeRemove

instance (gone : List String) (child : String) : Decidable (Keeps delta gone child) :=
  inferInstanceAs (Decidable (_ ∧ _))

theorem filter_keeps (base gone : List String) :
    (base.filter fun urn => urn ∉ gone).filter (fun urn => urn ∉ delta.nodeRemove) =
      base.filter fun urn => Keeps delta gone urn := by
  rw [List.filter_filter]
  apply filter_congr
  intro urn _
  by_cases removed : urn ∈ delta.nodeRemove <;> simp [Keeps, removed]

theorem yields_tail (positive : 0 < limit)
    (found : ∀ urn ∈ (delta.parentDelta casefold loaded parent).gained,
      delta.Known loaded urn ∨ urn ∈ main.nodes) (index : ℕ) :
    Yields (delta.childrenPage casefold main listing loaded parent limit) (.tail index)
      ((delta.parentDelta casefold loaded parent).gained.drop (limit + index))
      (listing.length + (delta.parentDelta casefold loaded parent).gained.length -
        (delta.parentDelta casefold loaded parent).removed) := by
  have nodup := @nodup_gained delta casefold loaded parent
  generalize measure : (delta.parentDelta casefold loaded parent).gained.length -
    (limit + index) = left
  induction left using Nat.strong_induction_on generalizing index with
  | _ left ih =>
    have serve : ((delta.childrenPage casefold main listing loaded parent limit
        (.tail index)).children).Perm
        (((delta.parentDelta casefold loaded parent).gained.drop (limit + index)).take limit) := by
      have page := @OverlayDelta.perm_composePage delta main loaded [] _
        ((nodup.drop (i := limit + index)).take (i := limit))
        fun urn mem => found urn (mem_of_mem_drop (mem_of_mem_take mem))
      simpa [OverlayDelta.childrenPage] using page
    by_cases more : (delta.childrenPage casefold main listing loaded parent limit
        (.tail index)).hasMore = true
    · have full : index + limit < (delta.parentDelta casefold loaded parent).gained.length -
          limit := by
        simp only [OverlayDelta.childrenPage, length_take, length_drop, decide_eq_true_eq] at more
        omega
      have next : (delta.childrenPage casefold main listing loaded parent limit
          (.tail index)).next = .tail (index + limit) := by
        simp only [OverlayDelta.childrenPage, length_take, length_drop, Position.tail.injEq]
        omega
      have onward := ih _ (by omega) (index + limit) rfl
      rw [← next, ← Nat.add_assoc, ← drop_drop] at onward
      have pages := yields_more more serve rfl onward
      rwa [take_append_drop] at pages
    · have last : limit + index + limit ≥
          (delta.parentDelta casefold loaded parent).gained.length := by
        simp only [OverlayDelta.childrenPage, length_take, length_drop, decide_eq_true_eq] at more
        omega
      apply yields_last (Bool.eq_false_iff.mpr more) _ rfl
      rwa [take_of_length_le (by rw [length_drop]; omega)] at serve

theorem store_more {offset : ℕ} (more : offset + limit < listing.length) :
    (delta.childrenPage casefold main listing loaded parent limit (.store offset)).hasMore ∧
      (delta.childrenPage casefold main listing loaded parent limit (.store offset)).next =
        .store (offset + limit) := by
  have page : offset + min limit (listing.length - offset) = offset + limit := by omega
  simp [OverlayDelta.childrenPage, storePage, page, more]

theorem store_tail {offset : ℕ} (done : listing.length ≤ offset + limit)
    (rest : limit < (delta.parentDelta casefold loaded parent).gained.length) :
    (delta.childrenPage casefold main listing loaded parent limit (.store offset)).hasMore ∧
      (delta.childrenPage casefold main listing loaded parent limit (.store offset)).next =
        .tail 0 := by
  have page : ¬ offset + min limit (listing.length - offset) < listing.length := by omega
  simp [OverlayDelta.childrenPage, storePage, page]
  omega

theorem store_last {offset : ℕ} (done : listing.length ≤ offset + limit)
    (rest : (delta.parentDelta casefold loaded parent).gained.length ≤ limit) :
    (delta.childrenPage casefold main listing loaded parent limit (.store offset)).hasMore =
      false := by
  have page : ¬ offset + min limit (listing.length - offset) < listing.length := by omega
  simp [OverlayDelta.childrenPage, storePage, page]
  omega

theorem yields_store_of (positive : 0 < limit)
    (found : ∀ urn ∈ (delta.parentDelta casefold loaded parent).gained,
      delta.Known loaded urn ∨ urn ∈ main.nodes) {offset : ℕ} {items : List String}
    (page : (delta.childrenPage casefold main listing loaded parent limit
      (.store offset)).children.Perm items)
    (onward : offset + limit < listing.length →
      Yields (delta.childrenPage casefold main listing loaded parent limit)
        (.store (offset + limit))
        (((listing.drop (offset + limit)).filter fun urn =>
            Keeps delta (delta.parentDelta casefold loaded parent).gone urn) ++
          (delta.parentDelta casefold loaded parent).gained.drop limit)
        (listing.length + (delta.parentDelta casefold loaded parent).gained.length -
          (delta.parentDelta casefold loaded parent).removed)) :
    Yields (delta.childrenPage casefold main listing loaded parent limit) (.store offset)
      (items ++ (((listing.drop (offset + limit)).filter fun urn =>
          Keeps delta (delta.parentDelta casefold loaded parent).gone urn) ++
        (delta.parentDelta casefold loaded parent).gained.drop limit))
      (listing.length + (delta.parentDelta casefold loaded parent).gained.length -
        (delta.parentDelta casefold loaded parent).removed) := by
  by_cases more : offset + limit < listing.length
  · obtain ⟨hasMore, next⟩ :=
      @store_more delta casefold main listing loaded parent limit offset more
    exact yields_more hasMore page rfl (next ▸ onward more)
  · have done : listing.length ≤ offset + limit := Nat.le_of_not_lt more
    rw [drop_of_length_le done, filter_nil, nil_append]
    by_cases rest : limit < (delta.parentDelta casefold loaded parent).gained.length
    · obtain ⟨hasMore, next⟩ := store_tail done rest
      exact yields_more hasMore page rfl (next ▸ yields_tail positive found 0)
    · have none := Nat.le_of_not_lt rest
      rw [drop_of_length_le none, append_nil]
      exact yields_last (store_last done none) page rfl

/-- After its first page main's listing is served as far as it is kept. -/
theorem yields_store (positive : 0 < limit)
    (found : ∀ urn ∈ (delta.parentDelta casefold loaded parent).gained,
      delta.Known loaded urn ∨ urn ∈ main.nodes) {offset : ℕ} (later : 0 < offset) :
    Yields (delta.childrenPage casefold main listing loaded parent limit) (.store offset)
      (((listing.drop offset).filter fun urn =>
          Keeps delta (delta.parentDelta casefold loaded parent).gone urn) ++
        (delta.parentDelta casefold loaded parent).gained.drop limit)
      (listing.length + (delta.parentDelta casefold loaded parent).gained.length -
        (delta.parentDelta casefold loaded parent).removed) := by
  generalize measure : listing.length - offset = left
  induction left using Nat.strong_induction_on generalizing offset with
  | _ left ih =>
    have page : (delta.childrenPage casefold main listing loaded parent limit
        (.store offset)).children.Perm (((listing.drop offset).take limit).filter fun urn =>
          Keeps delta (delta.parentDelta casefold loaded parent).gone urn) := by
      have page := @OverlayDelta.perm_composePage delta main loaded
        (((listing.drop offset).take limit).filter fun urn =>
          urn ∉ (delta.parentDelta casefold loaded parent).gone) [] nodup_nil nofun
      rw [filter_keeps, filter_nil] at page
      simpa [OverlayDelta.childrenPage, storePage, later.ne'] using page
    have pages := yields_store_of positive found page fun more =>
      ih _ (by omega) (Nat.add_pos_left later limit) rfl
    rwa [← append_assoc, ← filter_append, ← drop_drop, take_append_drop] at pages

/-- What the pages serve one after the other. -/
def servedInTurn (delta : OverlayDelta) (under : ParentDelta) (listing : List String)
    (limit : ℕ) : List String :=
  let front := (listing.take limit).filter fun urn => Keeps delta under.gone urn
  (front ++ (under.gained.take limit).filter fun urn => urn ∉ front) ++
    (((listing.drop limit).filter fun urn => Keeps delta under.gone urn) ++ under.gained.drop limit)

theorem yields_first (positive : 0 < limit)
    (found : ∀ urn ∈ (delta.parentDelta casefold loaded parent).gained,
      delta.Known loaded urn ∨ urn ∈ main.nodes) :
    Yields (delta.childrenPage casefold main listing loaded parent limit) (.store 0)
      (servedInTurn delta (delta.parentDelta casefold loaded parent) listing limit)
      (listing.length + (delta.parentDelta casefold loaded parent).gained.length -
        (delta.parentDelta casefold loaded parent).removed) := by
  have page := @OverlayDelta.perm_composePage delta main loaded
    ((listing.take limit).filter fun urn =>
      urn ∉ (delta.parentDelta casefold loaded parent).gone) _
    ((@nodup_gained delta casefold loaded parent).take (i := limit))
    fun urn mem => found urn (mem_of_mem_take mem)
  rw [filter_keeps] at page
  have pages := @yields_store_of delta casefold main listing loaded parent limit positive found
    0 _ (by simpa [OverlayDelta.childrenPage, storePage] using page)
    fun _ => yields_store positive found (by omega)
  simpa [servedInTurn] using pages

end

section

variable {main : Main} {types : EdgeTypes} {draft : Draft main} {parent child : String}
  {listing : Listing main types parent}

theorem mem_childrenOf {links : List GraphEdge} : child ∈ OverlayDelta.childrenOf parent links ↔
      ∃ edge ∈ links, edge.place.sourceUrn = parent ∧ edge.place.targetUrn = child := by
  simp [OverlayDelta.childrenOf, and_assoc]

theorem mem_composedChildren : child ∈ composedChildren types draft parent ↔
    ∃ edge ∈ composedEdges main draft.patch draft.values, types.contains edge.place ∧
      edge.place.sourceUrn = parent ∧ edge.place.targetUrn = child := by
  rw [composedChildren, mem_dedup, mem_childrenOf]
  simp only [mem_filter, and_assoc]

theorem exists_composed {entry : EdgeSkeleton} (mem : entry ∈ draft.patch.edgesUpsert) :
    ∃ edge ∈ composedEdges main draft.patch draft.values, edge.place = entry.place := by
  obtain ⟨value, loads, -, place⟩ := draft.loads entry mem
  exact ⟨value, (mem_composedEdges draft).mpr (.inr ⟨entry, mem, loads⟩), place⟩

theorem composed_of_given (given : child ∈
      OverlayDelta.childrenOf parent (OverlayDelta.ofPatch types draft.patch).contAdded) :
    child ∈ composedChildren types draft parent := by
  obtain ⟨edge, added, source, target⟩ := mem_childrenOf.mp given
  obtain ⟨contains, entry, mem, -, rfl⟩ := mem_select_true.mp added
  obtain ⟨value, composed, place⟩ := exists_composed mem
  rw [mem_composedChildren]
  exact ⟨value, composed, place ▸ contains, place ▸ source, place ▸ target⟩

theorem given_or_listed (composed : child ∈ composedChildren types draft parent) :
    child ∈ OverlayDelta.childrenOf parent (OverlayDelta.ofPatch types draft.patch).contAdded ∨
      child ∈ listing.children := by
  obtain ⟨edge, composed, contains, source, target⟩ := mem_composedChildren.mp composed
  cases (mem_composedEdges draft).mp composed with
  | inl untouched => exact .inr ((listing.mem_iff child).mpr ⟨edge, untouched.1, contains,
      source, target⟩)
  | inr held =>
    obtain ⟨entry, mem, loads⟩ := held
    obtain ⟨value, same, -, place⟩ := draft.loads entry mem
    rw [loads] at same
    cases same
    by_cases moved : Moved types entry
    · exact .inl (mem_childrenOf.mpr ⟨skeletonEdge entry.id entry.place,
        mem_select_true.mpr ⟨place ▸ contains, entry, mem, moved, rfl⟩,
        place ▸ source, place ▸ target⟩)
    · rw [Moved, not_forall] at moved
      obtain ⟨was, moved⟩ := moved
      obtain ⟨held, same⟩ := not_forall.mp moved
      obtain ⟨stored, inMain, -, rfl⟩ := (mem_was mem).mp held
      have same := not_not.mp same
      rw [place] at contains source target
      exact .inr ((listing.mem_iff child).mpr ⟨stored, inMain, same.contains ▸ contains,
        same.1.trans source, same.2.1.trans target⟩)

theorem taken_or_composed (listed : child ∈ listing.children) :
    child ∈ OverlayDelta.childrenOf parent (OverlayDelta.ofPatch types draft.patch).contRemoved ∨
      child ∈ composedChildren types draft parent := by
  obtain ⟨edge, mem, contains, source, target⟩ := (listing.mem_iff child).mp listed
  by_cases touched : edge.id ∈ edgeIds draft.patch
  · cases mem_append.mp touched with
    | inl upserted =>
      obtain ⟨entry, upserted, same⟩ := mem_map.mp upserted
      have was : edge.place ∈ entry.was := (mem_was upserted).mpr ⟨edge, mem, same.symm, rfl⟩
      by_cases moved : Moved types entry
      · exact .inl (mem_childrenOf.mpr ⟨skeletonEdge entry.id edge.place,
          mem_select_false.mpr ⟨contains, .inl ⟨entry, upserted, moved, edge.place, was, rfl⟩⟩,
          source, target⟩)
      · rw [Moved, not_forall] at moved
        obtain ⟨place, moved⟩ := moved
        obtain ⟨held, stays⟩ := not_forall.mp moved
        cases some.inj (was.symm.trans held)
        have stays := not_not.mp stays
        obtain ⟨value, composed, place⟩ := exists_composed upserted
        exact .inr (mem_composedChildren.mpr ⟨value, composed,
          by rw [place, ← stays.contains]; exact contains,
          by rw [place, ← stays.1]; exact source, by rw [place, ← stays.2.1]; exact target⟩)
    | inr removed =>
      obtain ⟨entry, removed, same⟩ := mem_map.mp removed
      have place := draft.removes entry removed
      rw [same, Main.edge?_eq_some.mpr ⟨mem, rfl⟩, map_some, some.injEq] at place
      exact .inl (mem_childrenOf.mpr ⟨skeletonEdge entry.id entry.place,
        mem_select_false.mpr ⟨place ▸ contains, .inr ⟨entry, removed, rfl⟩⟩,
        place ▸ source, place ▸ target⟩)
  · exact .inr (mem_composedChildren.mpr ⟨edge,
      (mem_composedEdges draft).mpr (.inl ⟨mem, touched⟩), contains, source, target⟩)

end

/-- The pages serve these children, each once, and all say how many there are. -/
structure ServesChildren (pages : List ChildrenPage) (children : List String) : Prop where
  once : (pages.flatMap ChildrenPage.children).Nodup
  exact : ∀ child, child ∈ pages.flatMap ChildrenPage.children ↔ child ∈ children
  counted : ∀ page ∈ pages, page.totalChildren = children.length

/-- What the draft gives and takes under a parent agrees with main's listing: no child bears
the urn of a node the draft removed; none it takes a link to, and gives none, keeps another;
a child main lists is given only where main's first page and the head both have it; and it
removes as many links as it takes or gives of the children main lists (or all there is). -/
structure Agrees (delta : OverlayDelta) (under : ParentDelta)
    (listed children : List String) (limit : ℕ) : Prop where
  named : ∀ child ∈ children, child ∉ delta.nodeRemove
  kept : ∀ child ∈ under.gone, child ∉ children
  given : ∀ child ∈ under.gained, child ∈ listed →
    child ∈ under.gained.take limit ∧ child ∈ listed.take limit
  counted : min under.removed (listed.length + under.gained.length) =
    (listed.filter fun child => child ∈ under.gone ∨ child ∈ under.gained).length

theorem Yields.serves_iff {read : Position → ChildrenPage} {position : Position}
    {served children : List String} {total : ℕ} (yields : Yields read position served total) :
    ∃ fuel pages, follow read fuel position = some pages ∧ (ServesChildren pages children ↔
        served.Nodup ∧ (∀ child, child ∈ served ↔ child ∈ children) ∧ total = children.length) := by
  obtain ⟨fuel, pages, followed, perm, reports⟩ := yields
  refine ⟨fuel, pages, followed, ?_⟩
  constructor
  · intro serves
    obtain ⟨page, mem⟩ := exists_mem_of_ne_nil pages (follow_ne_nil followed)
    exact ⟨perm.nodup_iff.mp serves.once, fun child => perm.mem_iff.symm.trans (serves.exact child),
      (reports page mem).symm.trans (serves.counted page mem)⟩
  · rintro ⟨once, exact, counted⟩
    exact ⟨perm.nodup_iff.mpr once, fun child => perm.mem_iff.trans (exact child),
      fun page mem => (reports page mem).trans counted⟩

section

variable {types : EdgeTypes} {casefold : String → String} {main : Main} {draft : Draft main}
  {parent : String} {listing : Listing main types parent} {loaded : List String} {limit : ℕ}

theorem composed_of_not_gone {child : String} (listed : child ∈ listing.children)
    (stays : child ∉ ((OverlayDelta.ofPatch types draft.patch).parentDelta casefold loaded
      parent).gone) : child ∈ composedChildren types draft parent := by
  cases @taken_or_composed main types draft _ _ _ listed with
  | inl taken =>
    by_cases given : child ∈ OverlayDelta.childrenOf parent
        (OverlayDelta.ofPatch types draft.patch).contAdded
    · exact composed_of_given given
    · exact absurd (mem_gone.mpr ⟨taken, given⟩) stays
  | inr composed => exact composed

/-- Where no child bears a removed urn or was taken for good, the children are those of main
that are not gone and those gained. -/
theorem mem_composedChildren_iff (named : ∀ child ∈ composedChildren types draft parent,
      child ∉ (OverlayDelta.ofPatch types draft.patch).nodeRemove)
    (kept : ∀ child ∈ ((OverlayDelta.ofPatch types draft.patch).parentDelta casefold loaded
      parent).gone, child ∉ composedChildren types draft parent) (child : String) :
    child ∈ composedChildren types draft parent ↔
      child ∈ listing.children ∧ ¬ child ∈ ((OverlayDelta.ofPatch types draft.patch).parentDelta
          casefold loaded parent).gone ∨
        child ∈ ((OverlayDelta.ofPatch types draft.patch).parentDelta casefold loaded
          parent).gained := by
  constructor
  · intro composed
    cases @given_or_listed main types draft _ _ listing composed with
    | inl given => exact .inr (mem_gained.mpr ⟨given, named child composed⟩)
    | inr listed => exact .inl ⟨listed, fun gone => kept child gone composed⟩
  · rintro (⟨listed, stays⟩ | gained)
    · exact composed_of_not_gone listed stays
    · exact composed_of_given (mem_gained.mp gained).1

/-- What the pages serve is exact just when draft and listing agree. -/
theorem servedInTurn_iff_agrees {delta : OverlayDelta} {under : ParentDelta}
    (ofPatch : delta = OverlayDelta.ofPatch types draft.patch)
    (ofParent : under = delta.parentDelta casefold loaded parent) :
    ((servedInTurn delta under listing.children limit).Nodup ∧
        (∀ child, child ∈ servedInTurn delta under listing.children limit ↔
          child ∈ composedChildren types draft parent) ∧
        listing.children.length + under.gained.length - under.removed =
          (composedChildren types draft parent).length) ↔
      Agrees delta under listing.children (composedChildren types draft parent) limit := by
  have gainedIs : ∀ child ∈ under.gained,
      child ∈ composedChildren types draft parent ∧ child ∉ under.gone := by
    subst ofPatch ofParent
    exact fun child gained =>
      ⟨composed_of_given (mem_gained.mp gained).1, notMem_gone_of_mem_gained gained⟩
  have nodup : under.gained.Nodup := ofParent ▸ nodup_gained
  have composed_iff (named : ∀ child ∈ composedChildren types draft parent,
        child ∉ delta.nodeRemove)
      (kept : ∀ child ∈ under.gone, child ∉ composedChildren types draft parent)
      (child : String) : child ∈ composedChildren types draft parent ↔
        child ∈ listing.children ∧ ¬ child ∈ under.gone ∨ child ∈ under.gained := by
    subst ofPatch ofParent
    exact mem_composedChildren_iff named kept child
  have keeps_of_gained {child : String} (gained : child ∈ under.gained) :
      Keeps delta under.gone child := by
    refine ⟨(gainedIs child gained).2, ?_⟩
    subst ofPatch ofParent
    exact (mem_gained.mp gained).2
  have listed : (((listing.children.take limit).filter fun urn => Keeps delta under.gone urn) ++
      (listing.children.drop limit).filter fun urn => Keeps delta under.gone urn) =
        listing.children.filter fun urn => Keeps delta under.gone urn := by
    rw [← filter_append, take_append_drop]
  have mem_served (child : String) : child ∈ servedInTurn delta under listing.children limit ↔
      child ∈ listing.children ∧ Keeps delta under.gone child ∨ child ∈ under.gained := by
    rw [servedInTurn, mem_weave, listed, take_append_drop, mem_filter, decide_eq_true_eq]
  have nodup_served : (servedInTurn delta under listing.children limit).Nodup ↔
      ∀ child ∈ under.gained, child ∈ listing.children →
        child ∈ under.gained.take limit ∧ child ∈ listing.children.take limit := by
    rw [servedInTurn, nodup_weave (listed ▸ listing.nodup.filter _)
      ((take_append_drop limit under.gained).symm ▸ nodup), listed, take_append_drop]
    simp only [mem_filter, decide_eq_true_eq]
    constructor
    · intro shared child gained mem
      have both := shared child gained ⟨mem, keeps_of_gained gained⟩
      exact ⟨both.1, both.2.1⟩
    · intro shared child gained mem
      have both := shared child gained mem.1
      exact ⟨both.1, both.2, keeps_of_gained gained⟩
  have counts (named : ∀ child ∈ composedChildren types draft parent, child ∉ delta.nodeRemove)
      (kept : ∀ child ∈ under.gone, child ∉ composedChildren types draft parent) :
      (composedChildren types draft parent).length + (listing.children.filter fun child =>
            child ∈ under.gone ∨ child ∈ under.gained).length =
        listing.children.length + under.gained.length :=
    length_add_count listing.nodup nodup (nodup_dedup _) (composed_iff named kept)
  constructor
  · rintro ⟨once, exact, total⟩
    have named : ∀ child ∈ composedChildren types draft parent, child ∉ delta.nodeRemove := by
      intro child composed
      cases (mem_served child).mp ((exact child).mpr composed) with
      | inl kept => exact kept.2.2
      | inr gained => exact (keeps_of_gained gained).2
    have kept : ∀ child ∈ under.gone, child ∉ composedChildren types draft parent := by
      intro child gone composed
      cases (mem_served child).mp ((exact child).mpr composed) with
      | inl kept => exact kept.2.1 gone
      | inr gained => exact (keeps_of_gained gained).1 gone
    have count := counts named kept
    exact { named, kept, given := nodup_served.mp once, counted := by omega }
  · intro agrees
    have count := counts agrees.named agrees.kept
    have removed := agrees.counted
    refine ⟨nodup_served.mpr agrees.given, fun child => ?_, by omega⟩
    rw [mem_served, composed_iff agrees.named agrees.kept]
    constructor
    · exact Or.imp_left fun ⟨mem, keeps⟩ => ⟨mem, keeps.1⟩
    · rintro (⟨mem, stays⟩ | gained)
      · have composed := (composed_iff agrees.named agrees.kept child).mpr (.inl ⟨mem, stays⟩)
        exact .inl ⟨mem, stays, agrees.named child composed⟩
      · exact .inr gained

theorem isSome_get?_nodeIndex {patch : PatchSet} {urn : String}
    (created : urn ∈ patch.nodesUpsert.map NodeSkeleton.urn) :
    ((OverlayDelta.ofPatch types patch).nodeIndex.get? urn).isSome := by
  obtain ⟨entry, mem, rfl⟩ := mem_map.mp created
  rw [OverlayDelta.ofPatch, Dict.get?_foldl_set_last NodeSkeleton.urn (fun entry => entry),
    Dict.get?_nil, or_none, isSome_map, find?_isSome]
  exact ⟨entry, mem_reverse.mpr mem, decide_eq_true rfl⟩

theorem known_of_gained {urn : String} (gained : urn ∈ ((OverlayDelta.ofPatch types
      draft.patch).parentDelta casefold loaded parent).gained) :
    (OverlayDelta.ofPatch types draft.patch).Known loaded urn ∨ urn ∈ main.nodes := by
  obtain ⟨edge, composed, -, -, rfl⟩ :=
    mem_composedChildren.mp (composed_of_given (mem_gained.mp gained).1)
  cases mem_append.mp (draft.closed edge composed).2 with
  | inl stored => exact .inr (mem_of_mem_filter stored)
  | inr created => exact .inl (.inr (isSome_get?_nodeIndex created))

/-- Main's own pages serve its listing. -/
theorem yields_storePage {listed : List String} (positive : 0 < limit) (offset : ℕ) :
    Yields (fun position => storePage listed limit position.offset) (.store offset)
      (listed.drop offset) listed.length := by
  generalize measure : listed.length - offset = left
  induction left using Nat.strong_induction_on generalizing offset with
  | _ left ih =>
    by_cases more : offset + limit < listed.length
    · have size : min limit (listed.length - offset) = limit := by omega
      have onward := ih _ (by omega) (offset + limit) rfl
      have pages := @yields_more (fun position => storePage listed limit position.offset)
        (.store offset) _ _ ((listed.drop offset).take limit)
        (by simp [storePage, Position.offset, size, more]) (Perm.refl _) rfl
        (by simpa [storePage, Position.offset, size] using onward)
      rwa [← drop_drop, take_append_drop] at pages
    · apply yields_last
      · simp [storePage, Position.offset]
        omega
      · rw [storePage, take_of_length_le]
        · exact Perm.refl _
        · rw [length_drop, Position.offset]
          omega
      · rfl

/-- Nothing is given, taken or removed by an empty patch set. -/
theorem servedInTurn_of_isEmpty (empty : (OverlayDelta.ofPatch types draft.patch).isEmpty)
    (listed : List String) :
    servedInTurn (OverlayDelta.ofPatch types draft.patch) ((OverlayDelta.ofPatch types
        draft.patch).parentDelta casefold loaded parent) listed limit = listed ∧
      ((OverlayDelta.ofPatch types draft.patch).parentDelta casefold loaded parent).gained = [] ∧
      ((OverlayDelta.ofPatch types draft.patch).parentDelta casefold loaded
        parent).removed = 0 := by
  obtain ⟨upserts, removes⟩ := edges_eq_nil_of_isEmpty empty
  have nodes : (OverlayDelta.ofPatch types draft.patch).nodeRemove = [] := by
    rw [OverlayDelta.isEmpty, Bool.and_eq_true, Bool.and_eq_true, Bool.and_eq_true] at empty
    exact isEmpty_iff.mp empty.1.1.2
  have links (added : Bool) : select types draft.patch added true = [] := by
    simp [select, counted, upserts, removes]
  have under : (OverlayDelta.ofPatch types draft.patch).parentDelta casefold loaded parent =
      ⟨[], [], 0⟩ := by
    simp [OverlayDelta.parentDelta, OverlayDelta.ofPatch, links, OverlayDelta.childrenOf]
  rw [under]
  refine ⟨?_, rfl, rfl⟩
  simp [servedInTurn, Keeps, nodes]

/-- Following the positions ends, and serves every child of the composed state once with the
right total on every page, if and only if draft and listing agree. -/
theorem follow_getChildren_iff (types : EdgeTypes) (casefold : String → String) {main : Main}
    (draft : Draft main) (parent : String) (listing : Listing main types parent)
    (loaded : List String) (limit : ℕ) (positive : 0 < limit) :
    ∃ fuel pages, follow (getChildren types casefold draft listing.children loaded parent limit)
        fuel (.store 0) = some pages ∧
      (ServesChildren pages (composedChildren types draft parent) ↔
        Agrees (OverlayDelta.ofPatch types draft.patch)
          ((OverlayDelta.ofPatch types draft.patch).parentDelta casefold loaded parent)
          listing.children (composedChildren types draft parent) limit) := by
  have yields : Yields (getChildren types casefold draft listing.children loaded parent limit)
      (.store 0) (servedInTurn (OverlayDelta.ofPatch types draft.patch)
        ((OverlayDelta.ofPatch types draft.patch).parentDelta casefold loaded parent)
        listing.children limit)
      (listing.children.length + ((OverlayDelta.ofPatch types draft.patch).parentDelta casefold
        loaded parent).gained.length - ((OverlayDelta.ofPatch types draft.patch).parentDelta
          casefold loaded parent).removed) := by
    by_cases empty : (OverlayDelta.ofPatch types draft.patch).isEmpty
    · obtain ⟨served, gained, removed⟩ := @servedInTurn_of_isEmpty types casefold main draft
        parent loaded limit empty listing.children
      have same : getChildren types casefold draft listing.children loaded parent limit =
          fun position => storePage listing.children limit position.offset := by
        funext position
        rw [getChildren, if_pos empty]
      rw [served, gained, removed, same]
      exact yields_storePage positive 0
    · have same : getChildren types casefold draft listing.children loaded parent limit =
          (OverlayDelta.ofPatch types draft.patch).childrenPage casefold main listing.children
            loaded parent limit := by
        funext position
        rw [getChildren, if_neg empty]
      rw [same]
      exact yields_first positive fun urn gained => known_of_gained gained
  obtain ⟨fuel, pages, followed, serves⟩ :=
    @Yields.serves_iff _ _ _ (composedChildren types draft parent) _ yields
  exact ⟨fuel, pages, followed, serves.trans (servedInTurn_iff_agrees rfl rfl)⟩

def twoChildren : Main where
  nodes := ["p", "a", "b"]
  edges := [⟨"k1", ⟨"p", "a", "CONTAINS"⟩, .obj []⟩, ⟨"k2", ⟨"p", "b", "CONTAINS"⟩, .obj []⟩]
  edges_nodup := by decide +kernel
  closed := by decide +kernel

def listTwoChildren : Listing twoChildren ⟨id, ["CONTAINS"]⟩ "p" where
  children := ["a", "b"]
  nodup := by decide +kernel
  mem_iff child := by
    have contained (name : String) (edge : GraphEdge) (place : edge.place =
        ⟨"p", name, "CONTAINS"⟩) : EdgeTypes.contains ⟨id, ["CONTAINS"]⟩ edge.place := by
      rw [place]
      simp [EdgeTypes.contains]
    constructor
    · intro mem
      rcases List.mem_pair.mp mem with rfl | rfl
      · exact ⟨_, List.mem_cons_self, contained "a" _ rfl, rfl, rfl⟩
      · exact ⟨_, List.mem_cons_of_mem _ List.mem_cons_self, contained "b" _ rfl, rfl, rfl⟩
    · rintro ⟨edge, mem, -, -, rfl⟩
      rcases List.mem_pair.mp mem with rfl | rfl
      · exact List.mem_cons_self
      · exact List.mem_cons_of_mem _ List.mem_cons_self

/-- The draft takes the second child's link away and gives it a new one. -/
def linkReplaced : Draft twoChildren where
  patch := { PatchSet.empty with
    edgesUpsert := [⟨"k3", ⟨"p", "b", "CONTAINS"⟩, none⟩]
    edgesRemove := [⟨"k2", ⟨"p", "b", "CONTAINS"⟩⟩] }
  values := fun id => if id = "k3" then some ⟨"k3", ⟨"p", "b", "CONTAINS"⟩, .obj []⟩ else none
  keyed := by decide +kernel
  loads entry mem := by
    obtain rfl := List.mem_singleton.mp mem
    exact ⟨⟨"k3", ⟨"p", "b", "CONTAINS"⟩, .obj []⟩, rfl, rfl, rfl⟩
  was := by decide +kernel
  removes := by decide +kernel
  closed := by decide +kernel

/-- On one page of two the replaced link does no harm. -/
theorem follow_getChildren_pageOfTwo :
    ∃ fuel pages, follow (getChildren ⟨id, ["CONTAINS"]⟩ id linkReplaced
        listTwoChildren.children [] "p" 2) fuel (.store 0) = some pages ∧
      ServesChildren pages (composedChildren ⟨id, ["CONTAINS"]⟩ linkReplaced "p") := by
  obtain ⟨fuel, pages, followed, serves⟩ := follow_getChildren_iff ⟨id, ["CONTAINS"]⟩ id
    linkReplaced "p" listTwoChildren [] 2 (by decide)
  exact ⟨fuel, pages, followed, serves.mpr
    { named := by decide +kernel, kept := by decide +kernel, given := by decide +kernel,
      counted := by decide +kernel }⟩

/-- On pages of one it is served with the first page and again by main's second. -/
theorem follow_getChildren_pagesOfOne :
    ∃ fuel pages, follow (getChildren ⟨id, ["CONTAINS"]⟩ id linkReplaced
        listTwoChildren.children [] "p" 1) fuel (.store 0) = some pages ∧
      ¬ ServesChildren pages (composedChildren ⟨id, ["CONTAINS"]⟩ linkReplaced "p") := by
  refine ⟨2, [⟨["a", "b"], 2, true, .store 1⟩, ⟨["b"], 2, false, .store 2⟩], by decide +kernel, ?_⟩
  intro serves
  have once := serves.once
  revert once
  decide +kernel

end

end DataViz.Overlay
