import SolReader.Proofs.Outline.Members

namespace SolReader

open List

namespace Key

variable {one two three : Key}

theorem same_iff : one.same two = true ↔ one = two ∨ (one.amount?.isSome = true ∧ one.amount? = two.amount?) := by
  rw [same,Bool.or_eq_true,Bool.and_eq_true,decide_eq_true_iff,decide_eq_true_iff]

theorem same_refl (key : Key) : key.same key = true :=
  same_iff.mpr (.inl rfl)

theorem same_symm (same : one.same two = true) : two.same one = true := by
  rcases same_iff.mp same with rfl | ⟨counts,amount⟩
  · exact same_refl one
  · exact same_iff.mpr (.inr ⟨amount ▸ counts,amount.symm⟩)

theorem same_trans (first : one.same two = true) (second : two.same three = true) : one.same three = true := by
  rcases same_iff.mp first with rfl | ⟨counts,amount⟩
  · exact second
  · rcases same_iff.mp second with rfl | ⟨_,again⟩
    · exact first
    · exact same_iff.mpr (.inr ⟨counts,amount.trans again⟩)

theorem same_left (same : one.same two = true) (other : Key) : one.same other = two.same other := by
  rw [Bool.eq_iff_iff]
  exact ⟨same_trans (same_symm same),same_trans same⟩

theorem same_plain (plain : one.amount? = none) : one.same two = decide (one = two) := by
  simp [same,plain]

theorem same_null (same : one.same two = true) : one = .null ↔ two = .null := by
  constructor
  · rintro rfl
    rw [same_plain rfl,decide_eq_true_iff] at same
    exact same.symm
  · rintro rfl
    have again := same_symm same
    rw [same_plain rfl,decide_eq_true_iff] at again
    exact again.symm

-- The keys as they first come.
def firsts (keys : List Key) : List Key :=
  keys.foldl (fun seen key => if seen.any (·.same key) then seen else seen ++ [key]) []

theorem firsts_concat (keys : List Key) (key : Key) :
    firsts (keys ++ [key]) = if (firsts keys).any (·.same key) then firsts keys else firsts keys ++ [key] := by
  rw [firsts,foldl_append]
  rfl

theorem eraseDups_concat (keys : List Key) (key : Key) :
    (keys ++ [key]).eraseDups = if key ∈ keys then keys.eraseDups else keys.eraseDups ++ [key] := by
  rw [eraseDups_append]
  by_cases member : key ∈ keys
  · simp [member,List.removeAll]
  · simp [member,List.removeAll,eraseDups_cons]

theorem firsts_plain {keys : List Key} (plain : ∀ key ∈ keys, key.amount? = none) : firsts keys = keys.eraseDups := by
  induction keys using List.reverseRecOn with
  | nil => rfl
  | append_singleton keys key ih =>
    obtain ⟨others,own⟩ := forall_mem_append.mp plain
    have last : key.amount? = none := own key (mem_singleton_self _)
    have found : (keys.eraseDups.any fun earlier => earlier.same key) = decide (key ∈ keys) := by
      rw [Bool.eq_iff_iff,any_eq_true,decide_eq_true_iff]
      constructor
      · rintro ⟨earlier,member,same⟩
        have equal := same_symm same
        rw [same_plain last,decide_eq_true_iff] at equal
        exact equal ▸ mem_eraseDups.mp member
      · exact fun member => ⟨key,mem_eraseDups.mpr member,same_refl key⟩
    simp only [firsts_concat,ih others,found,eraseDups_concat,decide_eq_true_iff]

theorem nodup_eraseDups (keys : List Key) : keys.eraseDups.Nodup := by
  induction keys using List.reverseRecOn with
  | nil => exact nodup_nil
  | append_singleton keys key ih =>
    rw [eraseDups_concat]
    split
    · exact ih
    · rename_i absent
      refine nodup_append.mpr ⟨ih,pairwise_singleton _ _,fun one inside other only => ?_⟩
      cases mem_singleton.mp only
      exact fun same => absent (same ▸ mem_eraseDups.mp inside)

theorem length_eraseDups (keys : List Key) :
    keys.eraseDups.length ≤ keys.length ∧ (keys.eraseDups.length = keys.length ↔ keys.Nodup) := by
  induction keys using List.reverseRecOn with
  | nil => simp
  | append_singleton keys key ih =>
    obtain ⟨most,all⟩ := ih
    rw [eraseDups_concat,length_append,length_singleton,nodup_append]
    by_cases member : key ∈ keys
    · have twice : ¬ ∀ one ∈ keys, one ≠ key := fun apart => apart key member rfl
      simp only [member,if_true,mem_singleton,forall_eq,twice,and_false,iff_false]
      omega
    · have apart : ∀ one ∈ keys, one ≠ key := fun one inside same => member (same ▸ inside)
      simp only [member,if_false,length_append,length_singleton,mem_singleton,forall_eq,
        Nat.add_right_cancel_iff,all]
      exact ⟨Nat.succ_le_succ most,fun once => ⟨once,pairwise_singleton _ _,apart⟩,And.left⟩

end Key

namespace Table

variable {α : Type}

-- What stands under a key.
def get? (table : Table α) (key : Key) : Option α :=
  (table.find? fun row => row.1.same key).map Prod.snd

def keys (table : Table α) : List Key :=
  table.map Prod.fst

@[simp] theorem get?_nil (key : Key) : get? ([] : Table α) key = none := rfl

theorem get?_cons (row : Key × α) (table : Table α) (key : Key) :
    get? (row :: table) key = if row.1.same key then some row.2 else get? table key := by
  rw [get?,List.find?_cons]
  cases row.1.same key <;> rfl

theorem isSome_get? {table : Table α} : (table.get? key).isSome = true ↔ ∃ held ∈ table.keys, held.same key = true := by
  simp only [get?,Option.isSome_map,List.find?_isSome,keys,mem_map,exists_exists_and_eq_and]

theorem any_keys (table : Table α) (key : Key) : (table.any fun row => row.1.same key) = table.keys.any (·.same key) := by
  rw [keys,any_map]
  rfl

theorem get?_append (table more : Table α) (key : Key) :
    get? (table ++ more) key = (get? table key).or (get? more key) := by
  rw [get?,List.find?_append,Option.map_or]
  rfl

theorem get?_replaced (table : Table α) (key other : Key) (entry : α) :
    get? (table.map fun row => if row.1.same key then (row.1,entry) else row) other =
      if key.same other then (get? table other).map fun _ => entry else get? table other := by
  induction table with
  | nil => simp
  | cons row table ih =>
    rw [map_cons,get?_cons,get?_cons,ih]
    by_cases here : row.1.same key = true
    · rw [if_pos here,Key.same_left here other]
      cases key.same other <;> rfl
    · rw [if_neg here]
      by_cases asked : key.same other = true
      · have apart : ¬ row.1.same other = true := fun same => here (Key.same_trans same (Key.same_symm asked))
        rw [if_neg apart,if_neg apart]
      · rw [if_neg asked,if_neg asked]

theorem get?_insert (table : Table α) (key other : Key) (entry : α) :
    (table.insert key entry).get? other = if key.same other then some entry else table.get? other := by
  rw [insert,any_keys]
  split
  · rename_i present
    obtain ⟨held,member,same⟩ := any_eq_true.mp present
    rw [get?_replaced]
    by_cases asked : key.same other = true
    · obtain ⟨old,found⟩ := Option.isSome_iff_exists.mp (isSome_get?.mpr ⟨held,member,Key.same_trans same asked⟩)
      rw [if_pos asked,if_pos asked,found]
      rfl
    · rw [if_neg asked,if_neg asked]
  · rename_i absent
    rw [get?_append,get?_cons,get?_nil]
    by_cases asked : key.same other = true
    · have lacking : table.get? other = none := by
        rw [← Option.not_isSome_iff_eq_none,isSome_get?]
        rintro ⟨held,member,same⟩
        exact absent (any_eq_true.mpr ⟨held,member,Key.same_trans same (Key.same_symm asked)⟩)
      rw [if_pos asked,if_pos asked,lacking]
      rfl
    · rw [if_neg asked,if_neg asked,Option.or_none]

theorem keys_insert (table : Table α) (key : Key) (entry : α) :
    (table.insert key entry).keys = if table.keys.any (·.same key) then table.keys else table.keys ++ [key] := by
  rw [insert,any_keys]
  split
  · rw [keys,keys,map_map]
    refine map_congr_left fun row _ => ?_
    simp only [Function.comp]
    split <;> rfl
  · rw [keys,map_append]
    rfl

theorem mem_insert {table : Table α} {row : Key × α} (member : row ∈ table.insert key entry) :
    row ∈ table ∨ (row.1.same key = true ∧ row.2 = entry) := by
  rw [insert] at member
  split at member
  · obtain ⟨old,inside,rfl⟩ := mem_map.mp member
    split
    · rename_i same
      exact .inr ⟨same,rfl⟩
    · exact .inl inside
  · rcases mem_append.mp member with inside | last
    · exact .inl inside
    · rw [mem_singleton.mp last]
      exact .inr ⟨Key.same_refl key,rfl⟩

theorem filter_insert {keep : Key → Bool} (respects : ∀ one two : Key, one.same two = true → keep one = keep two)
    (table : Table α) (key : Key) (entry : α) : (table.insert key entry).filter (fun row => keep row.1) =
      if keep key then Table.insert (table.filter fun row => keep row.1) key entry else table.filter fun row => keep row.1 := by
  let replace (row : Key × α) : Key × α := if row.1.same key then (row.1,entry) else row
  have keys (row : Key × α) : (replace row).1 = row.1 := by
    simp only [replace]
    split <;> rfl
  have replaced : (table.map replace).filter (fun row => keep row.1) =
      (table.filter fun row => keep row.1).map replace := by
    rw [filter_map]
    congr 2
    funext row
    rw [Function.comp,keys]
  cases kept : keep key with
  | true =>
    have present : ((table.filter fun row => keep row.1).any fun row => row.1.same key) =
        table.any fun row => row.1.same key := by
      rw [any_filter]
      refine congrArg (List.any table) (funext fun row => ?_)
      cases same : row.1.same key with
      | true => rw [respects _ _ same,kept]; rfl
      | false => rw [Bool.and_false]
    rw [insert,if_pos rfl,insert,present]
    split
    · exact replaced
    · simp [kept]
  | false =>
    rw [if_neg Bool.false_ne_true,insert]
    split
    · refine replaced.trans ((map_congr_left fun row member => ?_).trans (map_id _))
      have other : ¬ row.1.same key = true := fun same => by
        have held := (mem_filter.mp member).2
        rw [respects _ _ same,kept] at held
        cases held
      exact if_neg other
    · simp [kept]

end Table

-- The last of the nodes with a name.
def Fields.latest (nodes : List Fields) (key : Key) : Option Fields :=
  nodes.reverse.find? fun node => node.nameKey.same key

theorem Fields.mem_latest {key : Key} (last : latest nodes key = some node) :
    node ∈ nodes ∧ node.nameKey.same key = true := by
  have found := List.find?_some last
  exact ⟨mem_reverse.mp (mem_of_find?_eq_some last),found⟩

theorem Fields.latest_concat (nodes : List Fields) (node : Fields) (key : Key) :
    latest (nodes ++ [node]) key = if node.nameKey.same key then some node else latest nodes key := by
  rw [latest,reverse_concat,List.find?_cons]
  cases node.nameKey.same key <;> rfl

namespace Table

variable {α : Type}

theorem get?_ofNodes (entry : Fields → α) (nodes : List Fields) (key : Key) :
    (ofNodes entry nodes).get? key = (Fields.latest nodes key).map entry := by
  induction nodes using List.reverseRecOn with
  | nil => rfl
  | append_singleton nodes node ih =>
    rw [ofNodes_concat,get?_insert,Fields.latest_concat,ih]
    split <;> rfl

theorem keys_ofNodes (entry : Fields → α) (nodes : List Fields) :
    (ofNodes entry nodes).keys = Key.firsts (nodes.map Fields.nameKey) := by
  induction nodes using List.reverseRecOn with
  | nil => rfl
  | append_singleton nodes node ih =>
    rw [ofNodes_concat,keys_insert,map_append,map_singleton,Key.firsts_concat,ih]

theorem mem_ofNodes {entry : Fields → α} {row : Key × α} (member : row ∈ ofNodes entry nodes) :
    ∃ node ∈ nodes, row.1.same node.nameKey = true ∧ row.2 = entry node := by
  induction nodes using List.reverseRecOn with
  | nil => cases member
  | append_singleton nodes node ih =>
    rw [ofNodes_concat] at member
    rcases mem_insert member with earlier | last
    · obtain ⟨own,inside,both⟩ := ih earlier
      exact ⟨own,mem_append_left _ inside,both⟩
    · exact ⟨node,mem_append_right _ mem_cons_self,last⟩

theorem mem_mapEntries {β : Type} {change : α → β} {table : Table α} {row : Key × α} (member : row ∈ table) :
    (row.1,change row.2) ∈ table.mapEntries change :=
  mem_map_of_mem member

theorem filter_ofNodes {keep : Key → Bool} (respects : ∀ one two : Key, one.same two = true → keep one = keep two)
    (entry : Fields → α) (nodes : List Fields) : (ofNodes entry nodes).filter (fun row => keep row.1) =
      ofNodes entry (nodes.filter fun node => keep node.nameKey) := by
  induction nodes using List.reverseRecOn with
  | nil => rfl
  | append_singleton nodes node ih => rw [ofNodes_concat,filter_insert respects,ih,ofNodes_filter]

end Table

end SolReader
