import TreePattern.Proofs.Forest.Members
import TreePattern.Proofs.Signature.Registration

/-!
# What sharing stores

Sharing visits the nodes of the patterns from the last to the first and gives every subtree
one handle. The invariant `Sharing.Holds` says what the state then knows: the handle of every
visited node, in pre-order, and no handle of anything else. It carries over to the finished nodes,
where every subtree has the place of its handle.

## Results

* `Sharing.shareAll_holds`      — sharing the trees of a list keeps the invariant.
* `Sharing.isSome_shareAll_iff` — sharing needs all symbols to be known.
* `Sharing.Holds.idOfTree?_nodes` — where a stored tree is found among the finished nodes.
* `Forest.exists_build`         — which patterns have a forest.
-/

namespace TreePattern

namespace Sharing

/-- The state after the given nodes have been visited. -/
structure Holds (sig : Signature) (visited : List Tree) (st : State) : Prop where
  /-- The occurrences are the handles of the visited nodes. -/
  occurrences : List.Forall₂ (fun t h => Numbering.idOfTree? sig st.pool t = some h)
    visited st.occurrences
  /-- Every stored subtree occurs. -/
  mem_occurrences : ∀ h node, st.pool.get? h = some node → h ∈ st.occurrences

theorem holds_empty (sig : Signature) : Holds sig [] .empty :=
  ⟨.nil, fun _ _ h => absurd h (by simp [State.empty, Numbering.empty, Numbering.get?])⟩

-- ---------------------------------------------------------------------------
-- Sharing keeps the invariant
-- ---------------------------------------------------------------------------

variable {sig : Signature}

/-- Storing one node over children that are stored already. -/
theorem Holds.push {visited : List Tree} {st : State} (h : Holds sig visited st) {s : String}
    {symbol : SymbolId} {ts : List Tree} {children : List Handle}
    (hsymbol : sig.idOf? s = some symbol)
    (hchildren : List.Forall₂ (fun t c => Numbering.idOfTree? sig st.pool t = some c) ts children) :
    Holds sig (.node s ts :: visited)
        ⟨st.pool.insert ⟨symbol, children⟩,
          (st.pool.intern ⟨symbol, children⟩).1 :: st.occurrences⟩ ∧
      Numbering.idOfTree? sig (st.pool.insert ⟨symbol, children⟩) (.node s ts) =
        some (st.pool.intern ⟨symbol, children⟩).1 := by
  have hext := st.pool.extends_insert ⟨symbol, children⟩
  have hself : Numbering.idOfTree? sig (st.pool.insert ⟨symbol, children⟩) (.node s ts) =
      some (st.pool.intern ⟨symbol, children⟩).1 :=
    Numbering.idOfTree?_node_iff.2 ⟨symbol, children, hsymbol,
      hchildren.imp fun _ _ hc => Numbering.idOfTree?_of_extends hext hc,
      Numbering.idOf?_eq_some_iff.1 (Numbering.idOf?_insert_self ..)⟩
  refine ⟨⟨.cons hself (h.occurrences.imp fun _ _ ho => Numbering.idOfTree?_of_extends hext ho),
    fun j node hj => ?_⟩, hself⟩
  -- a node in the pool was there before or has just been pushed
  rcases Numbering.get?_insert_eq_some hj with hold | ⟨-, rfl⟩
  · exact List.mem_cons_of_mem _ (h.mem_occurrences j node hold)
  · exact List.mem_cons_self

/-- What sharing one tree does. -/
def Shares (sig : Signature) (t : Tree) : Prop :=
  ∀ {visited : List Tree} {st st' : State} {handle : Handle}, Holds sig visited st →
    share sig t st = some (handle, st') →
    Holds sig (t.preOrder ++ visited) st' ∧ st.pool.Extends st'.pool ∧
      Numbering.idOfTree? sig st'.pool t = some handle

theorem shareAll_of_shares {ts : List Tree} (hts : ∀ t ∈ ts, Shares sig t) {visited : List Tree}
    {st st' : State} {handles : List Handle} (h : Holds sig visited st)
    (hshare : shareAll sig ts st = some (handles, st')) :
    Holds sig (ts.flatMap Tree.preOrder ++ visited) st' ∧ st.pool.Extends st'.pool ∧
      List.Forall₂ (fun t c => Numbering.idOfTree? sig st'.pool t = some c) ts handles := by
  induction ts generalizing st' handles with
  | nil =>
    cases hshare
    exact ⟨h, Numbering.Extends.refl _, .nil⟩
  | cons t ts ih =>
    rw [shareAll] at hshare
    split at hshare
    · exact absurd hshare (by simp)
    · next rest mid hrest =>
      -- the list is shared from its end, so the first tree comes last
      obtain ⟨hmid, hext, hhandles⟩ := ih (fun t ht => hts t (List.mem_cons_of_mem _ ht)) hrest
      split at hshare
      · exact absurd hshare (by simp)
      · next handle last hlast =>
        cases hshare
        obtain ⟨hlast, hext', hhandle⟩ := hts t List.mem_cons_self hmid hlast
        refine ⟨?_, hext.trans hext', .cons hhandle ?_⟩
        · rw [List.flatMap_cons, List.append_assoc]
          exact hlast
        · exact hhandles.imp fun _ _ hc => Numbering.idOfTree?_of_extends hext' hc

theorem shares (t : Tree) : Shares sig t := by
  induction t with
  | node s ts ih =>
    intro visited st st' handle h hshare
    rw [share] at hshare
    split at hshare
    · next symbol children mid hsymbol hchildren =>
      cases hshare
      obtain ⟨hmid, hext, hhandles⟩ := shareAll_of_shares ih h hchildren
      obtain ⟨hpush, hself⟩ := hmid.push hsymbol hhandles
      refine ⟨?_, hext.trans (Numbering.extends_insert mid.pool _), hself⟩
      rw [Tree.preOrder_eq, List.cons_append]
      exact hpush
    · exact absurd hshare (by simp)

/-- Sharing visits the nodes of the trees in pre-order, from the last tree to the first. -/
theorem shareAll_holds {ts : List Tree} {st : State} {handles : List Handle}
    (h : shareAll sig ts .empty = some (handles, st)) :
    Holds sig (ts.flatMap Tree.preOrder) st := by
  have := (shareAll_of_shares (fun t _ => shares t) (holds_empty sig) h).1
  rwa [List.append_nil] at this

theorem exists_shareAll_of_share {ts : List Tree}
    (h : ∀ t ∈ ts, ∀ st, ∃ handle st', share sig t st = some (handle, st')) (st : State) :
    ∃ handles st', shareAll sig ts st = some (handles, st') := by
  induction ts with
  | nil => exact ⟨[], st, by rw [shareAll]⟩
  | cons t ts ih =>
    obtain ⟨handles, mid, hmid⟩ := ih fun u hu => h u (List.mem_cons_of_mem _ hu)
    obtain ⟨handle, last, hlast⟩ := h t List.mem_cons_self mid
    refine ⟨handle :: handles, last, ?_⟩
    simp only [shareAll, hmid, hlast]

/-- A tree whose symbols are all known can be shared. -/
theorem exists_share {t : Tree} (h : ∀ node ∈ t.preOrder, (sig.idOf? node.symbol).isSome)
    (st : State) : ∃ handle st', share sig t st = some (handle, st') := by
  induction t generalizing st with
  | node s ts ih =>
    have hts : ∀ t ∈ ts, ∀ st, ∃ handle st', share sig t st = some (handle, st') := by
      intro t ht
      exact ih t ht fun node hn => h node (Tree.mem_preOrder_of_mem_children ht hn)
    obtain ⟨handles, mid, hmid⟩ := exists_shareAll_of_share hts st
    obtain ⟨symbol, hsymbol⟩ := Option.isSome_iff_exists.1 (h _ (Tree.mem_preOrder_self _))
    have hsymbol : sig.idOf? s = some symbol := hsymbol
    exact ⟨_, _, by simp only [share, hsymbol, hmid]; rfl⟩

/-- Sharing needs all symbols to be known, and nothing else. -/
theorem isSome_shareAll_iff {ts : List Tree} :
    (shareAll sig ts .empty).isSome ↔
      ∀ t ∈ ts.flatMap Tree.preOrder, (sig.idOf? t.symbol).isSome := by
  constructor
  · intro hsome t ht
    obtain ⟨shared, hshare⟩ := Option.isSome_iff_exists.1 hsome
    obtain ⟨handle, -, hid⟩ := exists_of_mem_left (shareAll_holds hshare).occurrences ht
    exact Numbering.isSome_idOf?_symbol hid
  · intro h
    obtain ⟨handles, st, hshare⟩ := exists_shareAll_of_share
      (fun t ht => exists_share fun node hnode => h node (List.mem_flatMap.2 ⟨t, ht, hnode⟩))
      State.empty
    exact Option.isSome_iff_exists.2 ⟨_, hshare⟩

-- ---------------------------------------------------------------------------
-- Renumbering
-- ---------------------------------------------------------------------------

/-- The handles in the order of their first occurrence. -/
def State.order (st : State) : Numbering .member Handle := Numbering.ofList st.occurrences

theorem Holds.exists_place {visited : List Tree} {st : State} (h : Holds sig visited st)
    {handle : Handle} {node : Node .handle} (hnode : st.pool.get? handle = some node) :
    ∃ i, st.order.idOf? handle = some i := by
  rw [← Option.isSome_iff_exists, ← Numbering.contains, Numbering.contains_iff, State.order,
    Numbering.mem_toList_ofList]
  exact h.mem_occurrences handle node hnode

/-- A child of a stored node is stored, so it has a place in the order. -/
theorem Holds.exists_places {visited : List Tree} {st : State} (h : Holds sig visited st)
    {ts : List Tree} {handles : List Handle}
    (hts : List.Forall₂ (fun t c => Numbering.idOfTree? sig st.pool t = some c) ts handles) :
    List.Forall₂ (fun c i => st.order.idOf? c = some i) handles
      (handles.filterMap st.order.idOf?) := by
  induction hts with
  | nil => exact .nil
  | @cons t c ts handles ht _ ih =>
    obtain ⟨s, us⟩ := t
    obtain ⟨_, _, -, -, hget⟩ := Numbering.idOfTree?_node_iff.1 ht
    obtain ⟨i, hi⟩ := h.exists_place hget
    rw [List.filterMap_cons_some hi]
    exact .cons hi ih

/-- A stored node stands at a visited tree, and all its children have places. -/
theorem Holds.exists_children_places {visited : List Tree} {st : State} (h : Holds sig visited st)
    {handle : Handle} {node : Node .handle} (hnode : st.pool.get? handle = some node) :
    List.Forall₂ (fun c i => st.order.idOf? c = some i) node.children
      (renumber st.order node).children := by
  obtain ⟨t, -, ht⟩ := exists_of_mem_right h.occurrences (h.mem_occurrences handle node hnode)
  obtain ⟨s, ts⟩ := t
  obtain ⟨symbol, children, -, hchildren, hget⟩ := Numbering.idOfTree?_node_iff.1 ht
  rw [hnode, Option.some.injEq] at hget
  rw [hget]
  exact h.exists_places hchildren

/-- Different stored nodes stay different when they are renumbered. -/
theorem Holds.renumber_inj {visited : List Tree} {st : State} (h : Holds sig visited st)
    {a b : Handle} {m n : Node .handle} (ha : st.pool.get? a = some m)
    (hb : st.pool.get? b = some n) (heq : renumber st.order m = renumber st.order n) : a = b := by
  have hm := h.exists_children_places ha
  have hn := h.exists_children_places hb
  have hsymbol : (renumber st.order m).symbol = (renumber st.order n).symbol := by rw [heq]
  -- each child has one place in the order
  have hchildren : m.children = n.children := by
    rw [heq] at hm
    refine eq_of_forall₂ hm hn ?_
    intro c _ i d hc hd
    rw [Numbering.idOf?_eq_some_iff] at hc hd
    exact Option.some.inj (hc.symm.trans hd)
  have hmn : m = n := by
    cases m
    cases n
    rw [Node.mk.injEq]
    exact ⟨hsymbol, hchildren⟩
  exact Numbering.get?_inj ha (hmn ▸ hb)

/-- The finished nodes stand in the order of their handles. -/
theorem Holds.forall₂_nodes {visited : List Tree} {st : State} (h : Holds sig visited st) :
    List.Forall₂ (fun a node => (st.pool.get? a).map (renumber st.order) = some node)
      st.order.toList st.nodes.toList := by
  have hstored : ∀ a ∈ st.order.toList, ((st.pool.get? a).map (renumber st.order)).isSome := by
    intro a ha
    rw [State.order, Numbering.mem_toList_ofList] at ha
    obtain ⟨⟨s, ts⟩, -, ht⟩ := exists_of_mem_right h.occurrences ha
    obtain ⟨symbol, children, -, -, hget⟩ := Numbering.idOfTree?_node_iff.1 ht
    rw [hget]
    rfl
  obtain ⟨nodes, hnodes⟩ := exists_mapM_eq_some hstored
  rw [mapM_eq_some_iff] at hnodes
  -- renumbered nodes are still different, so numbering them leaves none out
  have hnodup : nodes.Nodup := by
    refine nodup_of_forall₂ hnodes st.order.nodup_toList ?_
    intro a _ b _ node ha hb
    obtain ⟨m, hm, rfl⟩ := Option.map_eq_some_iff.1 ha
    obtain ⟨n, hn, heq⟩ := Option.map_eq_some_iff.1 hb
    exact h.renumber_inj hm hn heq.symm
  have htoList : st.nodes.toList = nodes := by
    have heq : st.nodes = Numbering.ofList nodes :=
      congrArg Numbering.ofList (filterMap_eq_of_forall₂ hnodes)
    rw [heq, Numbering.toList_ofList_of_nodup hnodup]
  rwa [htoList]

theorem Holds.get?_nodes {visited : List Tree} {st : State} (h : Holds sig visited st)
    {i : MemberId} {node : Node .member} :
    st.nodes.get? i = some node ↔
      ∃ handle n, st.order.get? i = some handle ∧ st.pool.get? handle = some n ∧
        renumber st.order n = node := by
  rw [Numbering.get?_eq_getElem?_toList, getElem?_eq_some_iff_of_forall₂ h.forall₂_nodes]
  simp only [Numbering.get?_eq_getElem?_toList, Option.map_eq_some_iff, exists_and_left]

/-- A stored tree is found among the finished nodes, at the place of its handle. -/
theorem Holds.idOfTree?_nodes {visited : List Tree} {st : State} (h : Holds sig visited st)
    {t : Tree} {handle : Handle} {i : MemberId}
    (ht : Numbering.idOfTree? sig st.pool t = some handle)
    (hi : st.order.idOf? handle = some i) : Numbering.idOfTree? sig st.nodes t = some i := by
  induction t generalizing handle i with
  | node s ts ih =>
    obtain ⟨symbol, children, hsymbol, hchildren, hget⟩ := Numbering.idOfTree?_node_iff.1 ht
    refine Numbering.idOfTree?_node_iff.2 ⟨symbol, _, hsymbol, ?_,
      h.get?_nodes.2 ⟨handle, _, Numbering.idOf?_eq_some_iff.1 hi, hget, rfl⟩⟩
    have hplaces := h.exists_children_places hget
    exact forall₂_trans_of_mem hchildren hplaces fun t ht c j hc hj => ih t ht hc hj

end Sharing

-- ---------------------------------------------------------------------------
-- Finished forests
-- ---------------------------------------------------------------------------

namespace Forest

variable {sig : Signature} {f : Forest} {patterns : List Tree}

theorem build_eq_ok (h : build sig patterns = .ok f) :
    ∃ handles st, Sharing.shareAll sig patterns .empty = some (handles, st) ∧
      f = ofNodes st.nodes := by
  unfold build at h
  split at h
  · exact absurd h (by simp)
  · split at h
    · exact absurd h (by simp)
    · next handles st hshare =>
      cases h
      exact ⟨handles, st, hshare, rfl⟩

theorem ne_nil_of_build (h : build sig patterns = .ok f) : patterns ≠ [] := by
  rintro rfl
  exact absurd h (by simp [build])

/-- Patterns whose symbols are all known have a forest, unless there are none. -/
theorem exists_build (hne : patterns ≠ [])
    (h : ∀ p ∈ patterns, ∀ node ∈ p.preOrder, (sig.idOf? node.symbol).isSome) :
    ∃ f, build sig patterns = .ok f := by
  obtain ⟨handles, st, hshare⟩ := Sharing.exists_shareAll_of_share
    (fun p hp => Sharing.exists_share (h p hp)) Sharing.State.empty
  refine ⟨ofNodes st.nodes, ?_⟩
  rw [build, if_neg (by rwa [List.isEmpty_iff]), hshare]

/-- The wildcard leaf is the member that the forest names as its wildcard. -/
theorem idOf?_wildcard_tree (sig : Signature) (f : Forest) :
    f.idOf? sig Tree.wildcard = some f.wildcard :=
  idOf?_node_iff.2 ⟨_, [], sig.idOf?_wildcardSymbol, .nil, f.idOf?_wildcard⟩

end Forest

end TreePattern
