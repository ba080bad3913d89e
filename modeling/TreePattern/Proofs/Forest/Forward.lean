import TreePattern.Forest.Forward
import TreePattern.Proofs.Forest.Order

/-!
# Reading from front to back

A reading stores a subtree when its root is left, but notes where the root was entered. That is
where the subtree first appears, because equal subtrees never nest: a tree that is stored anew has
not been entered before, neither as one that is stored by now nor as one of those above, which are
deeper. So sorting by position gives the order of first appearance, and the forest is the same as
the one built from back to front. Every handle has a position, a rank and a node, so a reading that
knows its symbols is finished without fail.

## Results

* `Sharing.reads`                      — what reading a tree does.
* `Sharing.Tracks.forall₂_order`       — sorting finds the order of first appearance.
* `Sharing.Tracks.exists_nodeList`     — no look-up by handle goes astray.
* `Forest.buildForward_eq_build`       — both ways of building agree, in their errors too.
* `Forest.numbered_by_first_appearance` — when building fails, and the order of the members.
-/

namespace TreePattern

namespace Sharing

variable {sig : Signature} {visited above : List Tree} {r after : Reading}

/-- The state of a reading that has entered some nodes. Those in `above` have not been left yet. -/
structure Tracks (sig : Signature) (visited above : List Tree) (r : Reading) : Prop where
  entered : r.entered = visited.length
  size : r.positions.size = r.pool.size
  /-- What has been left is stored. -/
  stored : ∀ t ∈ visited, t ∈ above ∨ (Numbering.idOfTree? sig r.pool t).isSome
  /-- The positions are those where the stored subtrees first appear. -/
  first : ∀ (handle : Handle) position, r.positions[handle.val]? = some position →
    ∃ t ∈ visited, Numbering.idOfTree? sig r.pool t = some handle ∧ visited.idxOf t = position

theorem tracks_empty (sig : Signature) : Tracks sig [] [] .empty :=
  ⟨rfl, rfl, fun _ h => absurd h List.not_mem_nil, fun _ _ h => absurd h (by simp [Reading.empty])⟩

-- ---------------------------------------------------------------------------
-- One node
-- ---------------------------------------------------------------------------

theorem Tracks.enter (h : Tracks sig visited above r) (t : Tree) :
    Tracks sig (visited ++ [t]) (t :: above) r.enter := by
  refine ⟨?_, h.size, fun u hu => ?_, fun handle position hposition => ?_⟩
  · rw [Reading.enter, h.entered, List.length_append]
    rfl
  · rcases List.mem_append.1 hu with hu | hu
    · exact (h.stored u hu).imp (List.mem_cons_of_mem _) id
    · exact Or.inl (List.mem_cons.2 (Or.inl (List.mem_singleton.1 hu)))
  · obtain ⟨u, hu, hid, hfirst⟩ := h.first handle position hposition
    exact ⟨u, List.mem_append_left _ hu, hid, by rw [List.idxOf_append_of_mem hu, hfirst]⟩

/-- A node that is stored already can be left. -/
theorem Tracks.leave {t : Tree} (h : Tracks sig visited (t :: above) r)
    (ht : (Numbering.idOfTree? sig r.pool t).isSome) : Tracks sig visited above r := by
  refine ⟨h.entered, h.size, fun u hu => ?_, h.first⟩
  rcases h.stored u hu with hup | hsome
  · rcases List.mem_cons.1 hup with rfl | hup
    · exact Or.inr ht
    · exact Or.inl hup
  · exact Or.inr hsome

/-- A node that is new gets the next handle, with the position at which its tree first appears. -/
theorem Tracks.store {t : Tree} {node : Node .handle} (h : Tracks sig visited above r)
    (ht : t ∈ visited) (hnew : r.pool.idOf? node = none)
    (hid : Numbering.idOfTree? sig (r.pool.insert node) t = some ⟨r.pool.size⟩) :
    Tracks sig visited above
      { r with pool := r.pool.insert node, positions := r.positions.push (visited.idxOf t) } := by
  have hext := r.pool.extends_insert node
  refine ⟨h.entered, ?_, fun u hu => ?_, fun handle position hposition => ?_⟩
  · rw [Array.size_push, h.size, Numbering.size_insert_of_idOf?_eq_none hnew]
  · refine (h.stored u hu).imp_right fun hsome => ?_
    obtain ⟨handle, hhandle⟩ := Option.isSome_iff_exists.1 hsome
    exact Option.isSome_iff_exists.2 ⟨handle, Numbering.idOfTree?_of_extends hext hhandle⟩
  -- the new handle has the position at the end, and the others keep theirs
  · rw [Array.getElem?_push] at hposition
    split at hposition
    · next hlast =>
      cases hposition
      have hhandle : handle = ⟨r.pool.size⟩ := Index.ext_iff.2 (hlast.trans h.size)
      exact ⟨t, ht, hhandle ▸ hid, rfl⟩
    · obtain ⟨u, hu, hhandle, hfirst⟩ := h.first handle position hposition
      exact ⟨u, hu, Numbering.idOfTree?_of_extends hext hhandle, hfirst⟩

/-- Leaving a node over stored children, at a position which is the first one if the node is
new. -/
theorem Tracks.keep {s : String} {symbol : SymbolId} {ts : List Tree} {children : List Handle}
    {position : Nat} (h : Tracks sig visited (.node s ts :: above) r)
    (hvisited : .node s ts ∈ visited) (hsymbol : sig.idOf? s = some symbol)
    (hchildren : List.Forall₂ (fun t c => Numbering.idOfTree? sig r.pool t = some c) ts children)
    (hfirst : Numbering.idOfTree? sig r.pool (.node s ts) = none →
      visited.idxOf (.node s ts) = position) :
    let kept := r.keep position ⟨symbol, children⟩
    Tracks sig visited above kept.2 ∧ r.pool.Extends kept.2.pool ∧
      Numbering.idOfTree? sig kept.2.pool (.node s ts) = some kept.1 := by
  intro kept
  have hroot (handle : Handle) :=
    Numbering.idOfTree?_node_iff_get? (i := handle) hsymbol hchildren
  cases hknown : r.pool.idOf? ⟨symbol, children⟩ with
  | some handle =>
    have hid := (hroot handle).2 (Numbering.idOf?_eq_some_iff.1 hknown)
    rw [show kept = (handle, r) from Reading.keep_of_known hknown position]
    exact ⟨h.leave (Option.isSome_iff_exists.2 ⟨handle, hid⟩), Numbering.Extends.refl _, hid⟩
  | none =>
    have hext := r.pool.extends_insert ⟨symbol, children⟩
    -- a node that is not in the pool is that of a tree that is not stored
    have hmissing : Numbering.idOfTree? sig r.pool (.node s ts) = none := by
      refine Option.eq_none_iff_forall_ne_some.2 fun handle hhandle => ?_
      rw [hroot, ← Numbering.idOf?_eq_some_iff, hknown] at hhandle
      exact absurd hhandle (by simp)
    have hself : Numbering.idOfTree? sig (r.pool.insert ⟨symbol, children⟩) (.node s ts) =
        some ⟨r.pool.size⟩ := by
      have hlast := Numbering.idOf?_insert_self r.pool ⟨symbol, children⟩
      rw [Numbering.intern, hknown] at hlast
      exact (Numbering.idOfTree?_node_iff_get? hsymbol
        (hchildren.imp fun _ _ hc => Numbering.idOfTree?_of_extends hext hc)).2
        (Numbering.idOf?_eq_some_iff.1 hlast)
    have hstored := h.store hvisited hknown hself
    rw [hfirst hmissing] at hstored
    rw [show kept = _ from Reading.keep_of_new hknown position]
    exact ⟨hstored.leave (Option.isSome_iff_exists.2 ⟨_, hself⟩), hext, hself⟩

-- ---------------------------------------------------------------------------
-- Trees
-- ---------------------------------------------------------------------------

/-- What reading one tree does, at a place below nodes that are deeper. -/
def Reads (sig : Signature) (t : Tree) : Prop :=
  ∀ {visited above : List Tree} {r after : Reading} {handle : Handle},
    Tracks sig visited above r → (∀ u ∈ above, t.depth < u.depth) →
    read sig t r = some (handle, after) →
    Tracks sig (visited ++ t.preOrder) above after ∧ r.pool.Extends after.pool ∧
      Numbering.idOfTree? sig after.pool t = some handle

theorem readAll_of_reads {ts : List Tree} (hts : ∀ t ∈ ts, Reads sig t) {handles : List Handle}
    (h : Tracks sig visited above r) (habove : ∀ t ∈ ts, ∀ u ∈ above, t.depth < u.depth)
    (hread : readAll sig ts r = some (handles, after)) :
    Tracks sig (visited ++ ts.flatMap Tree.preOrder) above after ∧ r.pool.Extends after.pool ∧
      List.Forall₂ (fun t c => Numbering.idOfTree? sig after.pool t = some c) ts handles := by
  induction ts generalizing visited r handles with
  | nil =>
    cases hread
    rw [List.flatMap_nil, List.append_nil]
    exact ⟨h, Numbering.Extends.refl _, .nil⟩
  | cons t ts ih =>
    rw [readAll] at hread
    split at hread
    · exact absurd hread (by simp)
    · next handle mid hmid =>
      obtain ⟨htracks, hext, hhandle⟩ :=
        hts t List.mem_cons_self h (habove t List.mem_cons_self) hmid
      split at hread
      · exact absurd hread (by simp)
      · next handles last hlast =>
        cases hread
        obtain ⟨htracks, hext', hhandles⟩ := ih (fun t ht => hts t (List.mem_cons_of_mem _ ht))
          htracks (fun t ht => habove t (List.mem_cons_of_mem _ ht)) hlast
        -- the first tree keeps its handle while the others are read
        refine ⟨?_, hext.trans hext', .cons (Numbering.idOfTree?_of_extends hext' hhandle) hhandles⟩
        rwa [List.flatMap_cons, ← List.append_assoc]

theorem reads (t : Tree) : Reads sig t := by
  induction t with
  | node s ts ih =>
    intro visited above r after handle h habove hread
    rw [read] at hread
    split at hread
    · exact absurd hread (by simp)
    · next symbol hsymbol =>
      split at hread
      · exact absurd hread (by simp)
      · next children mid hmid =>
        have hbelow : ∀ t ∈ ts, ∀ u ∈ .node s ts :: above, t.depth < u.depth := by
          intro t ht u hu
          have hlt := Tree.depth_lt_of_mem_children s ht
          rcases List.mem_cons.1 hu with rfl | hu
          · exact hlt
          · exact Nat.lt_trans hlt (habove u hu)
        obtain ⟨htracks, hext, hchildren⟩ := readAll_of_reads ih (h.enter _) hbelow hmid
        have hvisited : visited ++ [.node s ts] ++ ts.flatMap Tree.preOrder =
            visited ++ (Tree.node s ts).preOrder := by
          rw [Tree.preOrder_eq, List.append_assoc]
          rfl
        rw [hvisited] at htracks
        -- a tree that is not stored by now has not been entered before, because equal trees do not
        -- nest
        have hfirst : Numbering.idOfTree? sig mid.pool (.node s ts) = none →
            (visited ++ (Tree.node s ts).preOrder).idxOf (.node s ts) = r.entered := by
          intro hnone
          have hnew : .node s ts ∉ visited := by
            intro hmem
            rcases h.stored _ hmem with hup | hsome
            · exact absurd (habove _ hup) (Nat.lt_irrefl _)
            · obtain ⟨old, hold⟩ := Option.isSome_iff_exists.1 hsome
              have := Numbering.idOfTree?_of_extends hext hold
              exact absurd (hnone.symm.trans this) (by simp)
          rw [List.idxOf_append_of_notMem hnew, Tree.preOrder_eq, List.idxOf_cons_self, h.entered]
          rfl
        obtain ⟨hkept, hext', hid⟩ := htracks.keep
          (List.mem_append_right _ (Tree.mem_preOrder_self _)) hsymbol hchildren hfirst
        obtain ⟨rfl, rfl⟩ := Prod.ext_iff.1 (Option.some.inj hread)
        exact ⟨hkept, hext.trans hext', hid⟩

/-- Reading enters the nodes of the trees in pre-order, and leaves them all. -/
theorem readAll_tracks {ts : List Tree} {handles : List Handle}
    (h : readAll sig ts .empty = some (handles, r)) :
    Tracks sig (ts.flatMap Tree.preOrder) [] r :=
  (readAll_of_reads (fun t _ => reads t) (tracks_empty sig)
    (fun _ _ _ hu => absurd hu List.not_mem_nil) h).1

-- ---------------------------------------------------------------------------
-- Order
-- ---------------------------------------------------------------------------

/-- The position of a handle is known, and it is where its tree first appears. -/
theorem Tracks.position_eq (h : Tracks sig visited above r) {t : Tree} {handle : Handle}
    (ht : Numbering.idOfTree? sig r.pool t = some handle) :
    t ∈ visited ∧ r.position handle = .ok (visited.idxOf t) := by
  have hlt : handle.val < r.positions.size := h.size ▸ Numbering.val_lt_size_of_idOfTree? ht
  have hposition := Array.getElem?_eq_getElem hlt
  obtain ⟨u, hu, hid, hfirst⟩ := h.first handle _ hposition
  obtain rfl := Numbering.idOfTree?_inj ht hid
  exact ⟨hu, found_eq_ok_iff.2 (hfirst ▸ hposition)⟩

/-- The node of `a` was entered no later than that of `b`. -/
def Reading.Precedes (r : Reading) (a b : Handle) : Prop :=
  ∃ m n, r.position a = .ok m ∧ r.position b = .ok n ∧ m ≤ n

/-- All positions are known, and sorting by them puts the handles into their order. -/
theorem Tracks.exists_order (h : Tracks sig visited above r) :
    ∃ order, r.order = .ok order ∧ order.Perm r.pool.ids ∧ order.Pairwise r.Precedes := by
  have hknown : ∀ handle ∈ r.pool.ids, ∃ placed,
      (do return (← r.position handle, handle)) = Except.ok placed := by
    intro handle hhandle
    have hlt : handle.val < r.positions.size := h.size ▸ Index.mem_range.1 hhandle
    exact ⟨_, bind_eq_ok_iff.2 ⟨_, found_eq_ok_iff.2 (Array.getElem?_eq_getElem hlt), rfl⟩⟩
  obtain ⟨placed, hplaced⟩ := exists_mapM_eq_ok hknown
  have hentries := mapM_eq_ok_iff.1 hplaced
  -- an entry is the position of a handle beside the handle
  have hsnd : ∀ {handle : Handle} {entry : Nat × Handle},
      (do return (← r.position handle, handle)) = Except.ok entry →
        r.position handle = .ok entry.1 ∧ entry.2 = handle := by
    intro handle entry hentry
    obtain ⟨position, hposition, hpair⟩ := bind_eq_ok_iff.1 hentry
    cases hpair
    exact ⟨hposition, rfl⟩
  have hhandles : placed.map Prod.snd = r.pool.ids := by
    have hmap := map_eq_of_forall₂ (f := id) (g := Prod.snd) hentries
      fun _ _ hentry => (hsnd hentry).2.symm
    rw [← hmap, List.map_id]
  have hposition : ∀ entry ∈ placed, r.position entry.2 = .ok entry.1 := by
    intro entry hmem
    obtain ⟨handle, -, hentry⟩ := exists_of_mem_right hentries hmem
    obtain ⟨hok, hsame⟩ := hsnd hentry
    rwa [hsame]
  -- sorting by position changes neither the handles nor their positions
  have hsorted : (placed.mergeSort fun a b => a.1 ≤ b.1).Pairwise
      fun a b => decide (a.1 ≤ b.1) = true :=
    List.pairwise_mergeSort (fun a b c hab hbc => by
        rw [decide_eq_true_eq] at hab hbc ⊢
        exact Nat.le_trans hab hbc)
      (fun a b => by simpa using Nat.le_total a.1 b.1) placed
  have hperm : (placed.mergeSort fun a b => a.1 ≤ b.1).Perm placed := List.mergeSort_perm ..
  refine ⟨_, by rw [Reading.order, hplaced]; rfl, hhandles ▸ hperm.map Prod.snd, ?_⟩
  refine List.pairwise_map.2 (hsorted.imp_of_mem fun {a b} ha hb hab => ?_)
  exact ⟨a.1, b.1, hposition a (hperm.mem_iff.1 ha), hposition b (hperm.mem_iff.1 hb),
    of_decide_eq_true hab⟩

/-- Once all nodes have been left, the stored subtrees are sorted by first appearance. -/
theorem Tracks.forall₂_order (h : Tracks sig visited [] r) {order : List Handle}
    (hperm : order.Perm r.pool.ids) (hsorted : order.Pairwise r.Precedes) :
    List.Forall₂ (fun t handle => Numbering.idOfTree? sig r.pool t = some handle)
      visited.eraseDups order := by
  have hstored : ∀ t ∈ visited.eraseDups, (Numbering.idOfTree? sig r.pool t).isSome := by
    intro t ht
    exact (h.stored t (List.mem_eraseDups.1 ht)).resolve_left List.not_mem_nil
  obtain ⟨handles, hhandles⟩ := exists_mapM_eq_some hstored
  rw [mapM_eq_some_iff] at hhandles
  have hnodup : handles.Nodup :=
    nodup_of_forall₂ hhandles (nodup_eraseDups visited) fun _ _ _ _ _ ha hb =>
      Numbering.idOfTree?_inj ha hb
  have hperm : order.Perm handles := by
    refine hperm.trans ((List.perm_ext_iff_of_nodup r.pool.nodup_ids hnodup).2 fun handle => ?_)
    rw [Numbering.ids, Index.mem_range]
    constructor
    · intro hlt
      have hlt : handle.val < r.positions.size := h.size ▸ hlt
      obtain ⟨t, ht, hid, -⟩ := h.first handle _ (Array.getElem?_eq_getElem hlt)
      obtain ⟨handle', hmem, hid'⟩ := exists_of_mem_left hhandles (List.mem_eraseDups.2 ht)
      exact Option.some.inj (hid.symm.trans hid') ▸ hmem
    · intro hmem
      obtain ⟨t, -, ht⟩ := exists_of_mem_right hhandles hmem
      exact Numbering.val_lt_size_of_idOfTree? ht
  have hascending : handles.Pairwise r.Precedes := by
    refine pairwise_of_forall₂ hhandles (pairwise_idxOf_eraseDups visited) ?_
    intro t _ u _ a b ha hb hlt
    exact ⟨_, _, (h.position_eq ha).2, (h.position_eq hb).2, Nat.le_of_lt hlt⟩
  have horder : order = handles := by
    refine hperm.eq_of_pairwise (fun a b ha hb hab hba => ?_) hsorted hascending
    -- two handles at one position stand for the same tree
    obtain ⟨t, -, ht⟩ := exists_of_mem_right hhandles (hperm.mem_iff.1 ha)
    obtain ⟨u, -, hu⟩ := exists_of_mem_right hhandles hb
    obtain ⟨hvisited, hta⟩ := h.position_eq ht
    obtain ⟨-, hub⟩ := h.position_eq hu
    obtain ⟨m, n, hm, hn, hmn⟩ := hab
    obtain ⟨n', m', hn', hm', hnm⟩ := hba
    rw [hta] at hm hm'
    rw [hub] at hn hn'
    cases hm
    cases hm'
    cases hn
    cases hn'
    rw [List.idxOf_inj hvisited |>.1 (Nat.le_antisymm hmn hnm)] at ht
    exact Option.some.inj (ht.symm.trans hu)
  rwa [horder]

-- ---------------------------------------------------------------------------
-- Ranks
-- ---------------------------------------------------------------------------

/-- Different handles below `n` are ranked by their places. -/
theorem Reading.exists_ranks {n : Nat} {order : List Handle} (hnodup : order.Nodup)
    (hlt : ∀ handle ∈ order, handle.val < n) :
    ∃ ranks, Reading.ranks n order = .ok ranks ∧ ranks.size = n ∧
      ∀ i (handle : Handle), order[i]? = some handle → ranks[handle.val]? = some ⟨i⟩ := by
  -- the handles before the last one keep the ranks that they got, because none of them is the last
  induction order using List.reverseRecOn with
  | nil => exact ⟨_, rfl, Array.size_replicate, by simp⟩
  | append_singleton order last ih =>
    obtain ⟨hnodup, -, hdisjoint⟩ := List.nodup_append.1 hnodup
    obtain ⟨ranks, hranks, hsize, hplaces⟩ :=
      ih hnodup fun handle hmem => hlt handle (List.mem_append_left _ hmem)
    have hlast : last.val < ranks.size :=
      hsize ▸ hlt last (List.mem_append_right _ (List.mem_singleton_self last))
    refine ⟨ranks.set last.val ⟨order.length⟩, ?_, by rw [Array.size_set, hsize], ?_⟩
    · unfold Reading.ranks at hranks ⊢
      rw [List.zipIdx_append, List.foldlM_append, hranks]
      refine bind_eq_ok_iff.2 ⟨ranks, rfl, ?_⟩
      rw [List.zipIdx_singleton, Nat.zero_add]
      exact foldlM_cons_eq_ok_iff.2 ⟨_, putAt_of_lt hlast _, rfl⟩
    · intro i handle hi
      rw [Array.getElem?_set]
      rcases Nat.lt_or_ge i order.length with hbefore | hend
      · rw [List.getElem?_append_left hbefore] at hi
        have hne : last ≠ handle := fun heq =>
          hdisjoint handle (List.mem_of_getElem? hi) last (List.mem_singleton_self last) heq.symm
        rw [if_neg fun heq => hne (Index.ext_iff.2 heq)]
        exact hplaces i handle hi
      · rw [List.getElem?_append_right hend, List.getElem?_singleton] at hi
        split at hi
        · next hzero =>
          cases hi
          rw [if_pos rfl, Nat.le_antisymm (Nat.le_of_sub_eq_zero hzero) hend]
        · exact absurd hi (by simp)

/-- The stored nodes are renumbered without fail, and are as if shared from back to front. -/
theorem Tracks.exists_nodeList (h : Tracks sig visited [] r) :
    ∃ st : State, Holds sig visited.eraseDups st ∧ r.nodeList = .ok st.nodes.toList := by
  obtain ⟨order, horder, hperm, hsorted⟩ := h.exists_order
  have hnodup : order.Nodup := hperm.nodup_iff.2 r.pool.nodup_ids
  have hlt : ∀ handle ∈ order, handle.val < r.pool.size :=
    fun handle hmem => Index.mem_range.1 (hperm.mem_iff.1 hmem)
  obtain ⟨ranks, hranks, -, hplaces⟩ := Reading.exists_ranks hnodup hlt
  have hholds : Holds sig visited.eraseDups ⟨r.pool, order⟩ := by
    refine ⟨h.forall₂_order hperm hsorted, fun handle node hnode => ?_⟩
    exact hperm.mem_iff.2 (Index.mem_range.2 (Numbering.val_lt_size_of_get? hnode))
  refine ⟨_, hholds, bind_eq_ok_iff.2 ⟨order, horder, bind_eq_ok_iff.2 ⟨ranks, hranks, ?_⟩⟩⟩
  have htoList : (State.order ⟨r.pool, order⟩).toList = order :=
    Numbering.toList_ofList_of_nodup hnodup
  have hnodes := hholds.forall₂_nodes
  rw [htoList] at hnodes
  refine mapM_eq_ok_iff.2 (hnodes.imp fun handle node hnode => ?_)
  obtain ⟨stored, hstored, rfl⟩ := Option.map_eq_some_iff.1 hnode
  have hchildren : stored.children.mapM (fun child => found ranks[child.val]?) =
      .ok (renumber (State.order ⟨r.pool, order⟩) stored).children := by
    refine mapM_eq_ok_iff.2 ((hholds.exists_children_places hstored).imp fun child i hi => ?_)
    -- the place of a child in the order is its rank
    rw [Numbering.idOf?_eq_some_iff, Numbering.get?_eq_getElem?_toList, htoList] at hi
    exact found_eq_ok_iff.2 (hplaces i.val child hi)
  exact bind_eq_ok_iff.2 ⟨stored, found_eq_ok_iff.2 hstored, bind_eq_ok_iff.2 ⟨_, hchildren, rfl⟩⟩

-- ---------------------------------------------------------------------------
-- Symbols
-- ---------------------------------------------------------------------------

theorem exists_readAll_of_read {ts : List Tree}
    (h : ∀ t ∈ ts, ∀ r, ∃ handle after, read sig t r = some (handle, after)) (r : Reading) :
    ∃ handles after, readAll sig ts r = some (handles, after) := by
  induction ts generalizing r with
  | nil => exact ⟨[], r, by rw [readAll]⟩
  | cons t ts ih =>
    obtain ⟨handle, mid, hmid⟩ := h t List.mem_cons_self r
    obtain ⟨handles, last, hlast⟩ := ih (fun u hu => h u (List.mem_cons_of_mem _ hu)) mid
    refine ⟨handle :: handles, last, ?_⟩
    simp only [readAll, hmid, hlast]

/-- A tree whose symbols are all known can be read. -/
theorem exists_read {t : Tree} (h : ∀ node ∈ t.preOrder, (sig.idOf? node.symbol).isSome)
    (r : Reading) : ∃ handle after, read sig t r = some (handle, after) := by
  induction t generalizing r with
  | node s ts ih =>
    have hts : ∀ t ∈ ts, ∀ r, ∃ handle after, read sig t r = some (handle, after) := by
      intro t ht
      exact ih t ht fun node hn => h node (Tree.mem_preOrder_of_mem_children ht hn)
    obtain ⟨symbol, hsymbol⟩ := Option.isSome_iff_exists.1 (h _ (Tree.mem_preOrder_self _))
    have hsymbol : sig.idOf? s = some symbol := hsymbol
    obtain ⟨handles, mid, hmid⟩ := exists_readAll_of_read hts r.enter
    exact ⟨_, _, by simp only [read, hsymbol, hmid]; rfl⟩

/-- Reading needs all symbols to be known, and nothing else. -/
theorem isSome_readAll_iff {ts : List Tree} :
    (readAll sig ts .empty).isSome ↔
      ∀ t ∈ ts.flatMap Tree.preOrder, (sig.idOf? t.symbol).isSome := by
  constructor
  · intro hsome t ht
    obtain ⟨result, hread⟩ := Option.isSome_iff_exists.1 hsome
    have hstored := ((readAll_tracks hread).stored t ht).resolve_left List.not_mem_nil
    obtain ⟨handle, hid⟩ := Option.isSome_iff_exists.1 hstored
    exact Numbering.isSome_idOf?_symbol hid
  · intro h
    obtain ⟨handles, r, hread⟩ := exists_readAll_of_read
      (fun t ht => exists_read fun node hnode => h node (List.mem_flatMap.2 ⟨t, ht, hnode⟩))
      Reading.empty
    exact Option.isSome_iff_exists.2 ⟨_, hread⟩

end Sharing

-- ---------------------------------------------------------------------------
-- Both ways of building
-- ---------------------------------------------------------------------------

namespace Forest

/-- Patterns read from front to back have the same forest as patterns shared from back to front,
with the same errors. -/
theorem buildForward_eq_build (sig : Signature) (patterns : List Tree) :
    buildForward sig patterns = build sig patterns := by
  have hsome : (Sharing.readAll sig patterns .empty).isSome ↔
      (Sharing.shareAll sig patterns .empty).isSome :=
    Sharing.isSome_readAll_iff.trans Sharing.isSome_shareAll_iff.symm
  unfold buildForward build
  split
  · rfl
  · cases hread : Sharing.readAll sig patterns .empty with
    | none =>
      rw [hread] at hsome
      rw [Option.not_isSome_iff_eq_none.1 (mt hsome.2 Bool.false_ne_true)]
    | some result =>
      rw [hread] at hsome
      obtain ⟨shared, hshare⟩ := Option.isSome_iff_exists.1 (hsome.1 rfl)
      obtain ⟨st, hst, hnodes⟩ := (Sharing.readAll_tracks hread).exists_nodeList
      -- both lists of nodes are for the same trees in the same order
      have hsame : st.nodes = shared.2.nodes :=
        hst.nodes_eq (Sharing.shareAll_holds hshare) (eraseDups_of_nodup (nodup_eraseDups _))
      rw [hshare]
      dsimp only
      rw [hnodes, ← hsame]
      exact congrArg (fun nodes => Except.ok (ofNodes nodes)) st.ofList_toList_nodes

/-- Reading the patterns from front to back fails without any and at an unknown symbol. Else the
members are the subpatterns in the order of their first appearance, followed by the wildcard if it
is not one of them, and patterns added behind change no number of a subpattern. -/
theorem numbered_by_first_appearance (sig : Signature) (patterns : List Tree) :
    (buildForward sig patterns = .error .noPatterns ↔ patterns = []) ∧
    (buildForward sig patterns = .error (.phaseOrder .forest .registration) ↔
      patterns ≠ [] ∧ ∃ t ∈ subpatterns patterns, sig.idOf? t.symbol = none) ∧
    (patterns ≠ [] → (∀ t ∈ subpatterns patterns, (sig.idOf? t.symbol).isSome) →
      ∃ f, buildForward sig patterns = .ok f ∧
        f.members.map (f.tree? sig) = (listing patterns).map some ∧
        f.tree? sig f.wildcard = some Tree.wildcard ∧
        ∀ sig' more f', buildForward sig' (patterns ++ more) = .ok f' →
          ∀ t ∈ subpatterns patterns, ∃ i, f.idOf? sig t = some i ∧ f'.idOf? sig' t = some i) ∧
    build sig patterns = buildForward sig patterns := by
  rw [buildForward_eq_build]
  -- there are no patterns, or a symbol is unknown, or the forest is built
  rcases build_cases sig patterns with ⟨hnil, hbuild⟩ | ⟨hne, hunknown, hbuild⟩ |
    ⟨hne, hknown, f, hbuild⟩
  · rw [hbuild]
    exact ⟨iff_of_true rfl hnil, iff_of_false (by simp) fun h => h.1 hnil,
      fun hne => absurd hnil hne, rfl⟩
  · rw [hbuild]
    refine ⟨iff_of_false (by simp) hne, iff_of_true rfl ⟨hne, hunknown⟩, fun _ hknown => ?_, rfl⟩
    obtain ⟨t, ht, hnone⟩ := hunknown
    exact absurd (hknown t ht) (by simp [hnone])
  · rw [hbuild]
    refine ⟨iff_of_false (by simp) hne, iff_of_false (by simp) fun h => ?_, fun _ _ => ?_, rfl⟩
    · obtain ⟨-, t, ht, hnone⟩ := h
      exact absurd (hknown t ht) (by simp [hnone])
    · refine ⟨f, rfl, map_tree?_members (lists_of_build hbuild),
        tree?_eq_some_iff.2 (idOf?_wildcard_tree sig f), fun sig' more f' h' t ht => ?_⟩
      rw [buildForward_eq_build] at h'
      exact exists_idOf?_of_append hbuild h' ht

/-- The subtrees of `f(g(y), x)` and `h(x, y, x)` are stored from the leaves upwards, `y` first, and
numbered as they appear. The second pattern moves the wildcard, and no subpattern of the first. -/
theorem numbered_by_first_appearance_for_shared_leaves :
    let p := Tree.node "f" [.node "g" [Tree.leaf "y"], Tree.leaf "x"]
    let q := Tree.node "h" [Tree.leaf "x", Tree.leaf "y", Tree.leaf "x"]
    ∃ sig f f', buildForward sig [p] = .ok f ∧ buildForward sig [p, q] = .ok f' ∧
      f.members.map (f.tree? sig) =
        [some p, some (.node "g" [Tree.leaf "y"]), some (Tree.leaf "y"), some (Tree.leaf "x"),
          some Tree.wildcard] ∧
      f'.members.map (f'.tree? sig) =
        [some p, some (.node "g" [Tree.leaf "y"]), some (Tree.leaf "y"), some (Tree.leaf "x"),
          some q, some Tree.wildcard] ∧
      ∃ i, f.idOf? sig (Tree.leaf "x") = some i ∧ f'.idOf? sig (Tree.leaf "x") = some i := by
  intro p q
  have hcheck : ([p, q].foldlM Signature.register .empty).toOption.any (fun sig =>
      (subpatterns [p, q]).all fun t => (sig.idOf? t.symbol).isSome) = true := by
    decide +kernel
  obtain ⟨sig, -, hall⟩ := (Option.any_eq_true ..).1 hcheck
  have hknown := List.all_eq_true.1 hall
  have hknown' : ∀ t ∈ subpatterns [p], (sig.idOf? t.symbol).isSome :=
    fun t ht => hknown t ((subpatterns_prefix_append [p] [q]).subset ht)
  obtain ⟨f, hf, hmembers, -, hkept⟩ :=
    (numbered_by_first_appearance sig [p]).2.2.1 (by simp) hknown'
  obtain ⟨f', hf', hmembers', -, -⟩ :=
    (numbered_by_first_appearance sig [p, q]).2.2.1 (by simp) hknown
  exact ⟨sig, f, f', hf, hf', hmembers.trans (by decide +kernel),
    hmembers'.trans (by decide +kernel), hkept sig [q] f' hf' _ (by decide +kernel)⟩

end Forest

end TreePattern
