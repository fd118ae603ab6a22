import Mathlib.Data.List.Forall2
import Mathlib.Data.List.Induction
import Mathlib.Data.List.Nodup
import XmlSieve.Entries

/-!
# Tables of entries

Entries that were inserted one by one are a `table`: one entry for each key, in the order in which
the keys first occurred (`List.eraseDups`).  Keys are told apart by their names.
-/

namespace XmlSieve

/-- Related lists have related entries at every place, or none there. -/
theorem forall₂_getElem? {α β : Type} {R : α → β → Prop} {xs : List α} {ys : List β}
    (h : List.Forall₂ R xs ys) (i : Nat) : Option.Rel R xs[i]? ys[i]? := by
  induction h generalizing i with
  | nil => exact .none
  | cons hfirst hrest ih =>
    cases i with
    | zero => exact .some hfirst
    | succ i => exact ih i

section FirstOccurrences

variable {κ : Type} [DecidableEq κ]

theorem eraseDups_concat (keys : List κ) (k : κ) :
    (keys ++ [k]).eraseDups = if k ∈ keys then keys.eraseDups else keys.eraseDups ++ [k] := by
  rw [List.eraseDups_append]
  by_cases h : k ∈ keys <;> simp [h, List.removeAll, List.eraseDups_cons]

theorem nodup_eraseDups (keys : List κ) : keys.eraseDups.Nodup := by
  induction keys using List.reverseRecOn with
  | nil => exact List.nodup_nil
  | append_singleton keys k ih =>
    rw [eraseDups_concat]
    split
    · exact ih
    · next h =>
      rw [List.nodup_append]
      refine ⟨ih, by simp, ?_⟩
      rintro l hl _ hk rfl
      rw [List.mem_singleton.1 hk] at hl
      exact h (List.mem_eraseDups.1 hl)

/-- Copies of a new key in front of others count as one. -/
theorem eraseDups_replicate_append {k : κ} {keys : List κ} {n : Nat} (hn : n ≠ 0) (hk : k ∉ keys) :
    (List.replicate n k ++ keys).eraseDups = k :: keys.eraseDups := by
  obtain ⟨n, rfl⟩ := Nat.exists_eq_succ_of_ne_zero hn
  have hothers : keys.filter (fun key => !key == k) = keys :=
    List.filter_eq_self.2 fun key hkey => by
      have hne : key ≠ k := fun heq => hk (heq ▸ hkey)
      simp [hne]
  rw [List.replicate_succ, List.cons_append, List.eraseDups_cons, List.filter_append, hothers]
  simp

end FirstOccurrences

namespace Entries

section

variable {α : Type} {name other : String} {v : α} {entries : Entries α}

theorem mem_of_get? (h : get? name entries = some v) : (name, v) ∈ entries := by
  induction entries with
  | nil => cases h
  | cons entry entries ih =>
    rw [get?] at h
    split at h
    · next hname =>
      cases h
      simp [← hname]
    · exact List.mem_cons_of_mem _ (ih h)

theorem mem_insert {entry : String × α} (h : entry ∈ insert name v entries) :
    entry = (name, v) ∨ entry ∈ entries := by
  induction entries with
  | nil => exact .inl (List.mem_singleton.1 h)
  | cons first entries ih =>
    rw [insert] at h
    split at h
    · next hname =>
      rw [hname] at h
      exact (List.mem_cons.1 h).imp_right (List.mem_cons_of_mem _)
    · rcases List.mem_cons.1 h with rfl | h
      · exact .inr (by simp)
      · exact (ih h).imp_right (List.mem_cons_of_mem _)

theorem get?_insert_of_ne (h : other ≠ name) :
    get? other (insert name v entries) = get? other entries := by
  induction entries with
  | nil => simp [insert, get?, Ne.symm h]
  | cons entry entries ih =>
    rw [insert]
    split
    · next hname => simp [get?, hname, Ne.symm h]
    · rw [get?, get?, ih]

theorem names_cons (entry : String × α) (entries : Entries α) :
    names (entry :: entries) = entry.1 :: names entries := rfl

theorem names_insert (name : String) (v : α) (entries : Entries α) :
    (insert name v entries).names =
      if name ∈ entries.names then entries.names else entries.names ++ [name] := by
  induction entries with
  | nil => rfl
  | cons entry entries ih =>
    rw [insert]
    by_cases hname : entry.1 = name
    · rw [if_pos hname, names_cons, names_cons, if_pos (by simp [hname])]
    · rw [if_neg hname, names_cons, names_cons, ih]
      by_cases hmem : name ∈ names entries
      · rw [if_pos hmem, if_pos (List.mem_cons_of_mem _ hmem)]
      · rw [if_neg hmem, if_neg (by simp [Ne.symm hname, hmem]), List.cons_append]

end

variable {κ α : Type} {name : κ → String} {value : κ → α} {keys : List κ} {k : κ}

/-- One entry for each key. -/
def table (name : κ → String) (value : κ → α) (keys : List κ) : Entries α :=
  keys.map fun k => (name k, value k)

theorem names_table (name : κ → String) (value : κ → α) (keys : List κ) :
    (table name value keys).names = keys.map name := by
  rw [names, table, List.map_map]
  rfl

theorem get?_table [DecidableEq κ] (hinj : ∀ l ∈ keys, name l = name k → l = k) :
    get? (name k) (table name value keys) = if k ∈ keys then some (value k) else none := by
  induction keys with
  | nil => rfl
  | cons l keys ih =>
    have hrest := ih fun m hm => hinj m (by simp [hm])
    simp only [table, List.map_cons, get?] at hrest ⊢
    by_cases heq : l = k
    · simp [heq]
    · have hne : name l ≠ name k := fun hn => heq (hinj l (by simp) hn)
      rw [if_neg hne, hrest]
      simp [Ne.symm heq]

theorem insert_table_of_not_mem (v : α) (hnew : ∀ l ∈ keys, name l ≠ name k) :
    insert (name k) v (table name value keys) = table name value keys ++ [(name k, v)] := by
  induction keys with
  | nil => rfl
  | cons l keys ih =>
    have hrest := ih fun m hm => hnew m (by simp [hm])
    simp only [table, List.map_cons, insert] at hrest ⊢
    rw [if_neg (hnew l (by simp)), hrest]
    rfl

theorem table_congr {value' : κ → α} (h : ∀ l ∈ keys, value l = value' l) :
    table name value keys = table name value' keys :=
  List.map_congr_left fun l hl => by rw [h l hl]

theorem insert_table_of_mem [DecidableEq κ] (v : α)
    (hinj : ∀ l ∈ keys, name l = name k → l = k) (hnodup : keys.Nodup) (hk : k ∈ keys) :
    insert (name k) v (table name value keys) =
      table name (fun l => if l = k then v else value l) keys := by
  induction keys with
  | nil => cases hk
  | cons l keys ih =>
    obtain ⟨hl, hkeys⟩ := List.nodup_cons.1 hnodup
    by_cases heq : l = k
    · subst heq
      have hrest : table name value keys =
          table name (fun m => if m = l then v else value m) keys :=
        table_congr fun m hm => (if_neg fun heq : m = l => hl (heq ▸ hm)).symm
      simp only [table, List.map_cons, insert, if_true] at hrest ⊢
      rw [hrest]
    · have hrest := ih (fun m hm => hinj m (by simp [hm])) hkeys
        (by simpa [Ne.symm heq] using hk)
      have hne : name l ≠ name k := fun hn => heq (hinj l (by simp) hn)
      simp only [table, List.map_cons, insert] at hrest ⊢
      rw [if_neg hne, hrest, if_neg heq]

end Entries

end XmlSieve
