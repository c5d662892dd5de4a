import Mathlib.Data.List.Basic

/-!
# Reading back what was written in fields

A field is closed by a character that does not occur in it, and a sequence of
code words is read back when no word begins what another one goes on with. Chunks
that are ended by a separator are the lines when the separator does not occur in
them.
-/

namespace Foundation.Fields

variable {α β : Type*}

section Closed

variable (close : α)

/-- Labelled fields, each with the closing character behind it. -/
def closed (fields : List (List α × List α)) : List α :=
  fields.flatMap fun field => field.1 ++ field.2 ++ [close]

variable {close}

theorem field_append_inj {a a' r r' : List α} (ha : close ∉ a) (ha' : close ∉ a')
    (h : a ++ close :: r = a' ++ close :: r') : a = a' ∧ r = r' := by
  induction a generalizing a' with
  | nil =>
      cases a' with
      | nil => exact ⟨rfl, (List.cons.inj h).2⟩
      | cons c a' => exact absurd ((List.cons.inj h).1 ▸ List.mem_cons_self) ha'
  | cons c a ih =>
      cases a' with
      | nil => exact absurd ((List.cons.inj h).1 ▸ List.mem_cons_self) ha
      | cons c' a' =>
          obtain ⟨rfl, hrest⟩ := List.cons.inj h
          obtain ⟨rfl, hr⟩ := ih (fun hc => ha (List.mem_cons_of_mem _ hc))
            (fun hc => ha' (List.mem_cons_of_mem _ hc)) hrest
          exact ⟨rfl, hr⟩

theorem notMem_closed {c : α} (hc : c ≠ close) {fields : List (List α × List α)}
    (hlabels : ∀ field ∈ fields, c ∉ field.1) (hfree : ∀ field ∈ fields, c ∉ field.2) :
    c ∉ closed close fields := by
  intro hmem
  obtain ⟨field, hfield, hmem⟩ := List.mem_flatMap.mp hmem
  rcases List.mem_append.mp hmem with hmem | hmem
  · rcases List.mem_append.mp hmem with hmem | hmem
    · exact hlabels field hfield hmem
    · exact hfree field hfield hmem
  · exact hc (List.mem_singleton.mp hmem)

/-- With the same labels, fields free of the closing character are read back, and
so is what follows them. -/
theorem closed_append_inj {fields fields' : List (List α × List α)} {r r' : List α}
    (hlabels : fields.map Prod.fst = fields'.map Prod.fst)
    (hfree : ∀ field ∈ fields, close ∉ field.2) (hfree' : ∀ field ∈ fields', close ∉ field.2)
    (h : closed close fields ++ r = closed close fields' ++ r') : fields = fields' ∧ r = r' := by
  induction fields generalizing fields' with
  | nil =>
      obtain rfl := List.map_eq_nil_iff.mp hlabels.symm
      exact ⟨rfl, h⟩
  | cons field fields ih =>
      cases fields' with
      | nil => cases hlabels
      | cons field' fields' =>
          obtain ⟨label, a⟩ := field
          obtain ⟨label', a'⟩ := field'
          obtain ⟨hlabel, hlater⟩ := List.cons.inj hlabels
          obtain rfl : label = label' := hlabel
          obtain ⟨ha, hlaterFree⟩ := List.forall_mem_cons.mp hfree
          obtain ⟨ha', hlaterFree'⟩ := List.forall_mem_cons.mp hfree'
          have hfirst : a ++ close :: (closed close fields ++ r) =
              a' ++ close :: (closed close fields' ++ r') := by
            simpa [closed, List.append_assoc] using h
          obtain ⟨rfl, hrest⟩ := field_append_inj ha ha' hfirst
          obtain ⟨rfl, hr⟩ := ih hlater hlaterFree hlaterFree' hrest
          exact ⟨rfl, hr⟩

end Closed

section Lines

variable [BEq α] (sep : α)

/-- The first line goes up to the first separator. -/
theorem head?_splitOn (chunk : List α) :
    (chunk.splitOn sep).head? = some (chunk.takeWhile fun c => !(c == sep)) := by
  induction chunk with
  | nil => rfl
  | cons c chunk ih =>
      rw [List.splitOn_cons_eq_if_modifyHead]
      cases hc : c == sep with
      | true => simp [hc]
      | false => simp [hc, ih]

variable [LawfulBEq α]

/-- Chunks, each with the separator behind it. -/
def ended (chunks : List (List α)) : List α := chunks.flatMap fun chunk => chunk ++ [sep]

/-- The lines are those of the chunks. Behind the last separator an empty one begins. -/
theorem splitOn_ended (chunks : List (List α)) :
    (ended sep chunks).splitOn sep = chunks.flatMap (List.splitOn sep) ++ [[]] := by
  induction chunks with
  | nil => rfl
  | cons chunk chunks ih =>
      rw [List.flatMap_cons, List.append_assoc, ← ih, ← List.splitOn_append_cons_self]
      simp [ended]

variable {sep}

theorem flatMap_splitOn {chunks : List (List α)} (h : ∀ chunk ∈ chunks, sep ∉ chunk) :
    chunks.flatMap (List.splitOn sep) = chunks := by
  induction chunks with
  | nil => rfl
  | cons chunk chunks ih =>
      obtain ⟨hchunk, hchunks⟩ := List.forall_mem_cons.mp h
      rw [List.flatMap_cons, List.splitOn_eq_singleton hchunk, ih hchunks, List.singleton_append]

/-- Chunks that make a single line are this line. -/
theorem eq_singleton_of_flatMap_splitOn {chunks : List (List α)} {line : List α}
    (h : chunks.flatMap (List.splitOn sep) = [line]) : chunks = [line] := by
  match chunks with
  | [] => cases h
  | [chunk] =>
      have hchunk : chunk.splitOn sep = [line] := by simpa using h
      have hjoin : [sep].intercalate (chunk.splitOn sep) = chunk := List.intercalate_splitOn sep
      rw [hchunk, List.intercalate_singleton] at hjoin
      rw [hjoin]
  | chunk :: chunk' :: chunks =>
      have hlen := congrArg List.length h
      have hne := List.length_pos_iff.mpr (List.splitOn_ne_nil sep chunk)
      have hne' := List.length_pos_iff.mpr (List.splitOn_ne_nil sep chunk')
      simp only [List.flatMap_cons, List.length_append, List.length_singleton] at hlen
      omega

end Lines

section Code

variable {γ : Type*} {code : α → List β} {meaning : α → γ} {good : α → Prop}

/-- When the meaning of one code word can be read off the front, all can. -/
theorem map_eq_of_flatMap_eq (hne : ∀ a, code a ≠ [])
    (hfront : ∀ a a' r r', good a → good a' → code a ++ r = code a' ++ r' →
      meaning a = meaning a' ∧ r = r')
    {l l' : List α} (hl : ∀ a ∈ l, good a) (hl' : ∀ a ∈ l', good a)
    (h : l.flatMap code = l'.flatMap code) : l.map meaning = l'.map meaning := by
  induction l generalizing l' with
  | nil =>
      cases l' with
      | nil => rfl
      | cons a l' => exact absurd (List.append_eq_nil_iff.mp h.symm).1 (hne a)
  | cons a l ih =>
      cases l' with
      | nil => exact absurd (List.append_eq_nil_iff.mp h).1 (hne a)
      | cons a' l' =>
          obtain ⟨ha, hl⟩ := List.forall_mem_cons.mp hl
          obtain ⟨ha', hl'⟩ := List.forall_mem_cons.mp hl'
          obtain ⟨hmeaning, htail⟩ := hfront a a' _ _ ha ha' h
          rw [List.map_cons, List.map_cons, hmeaning, ih hl hl' htail]

end Code

end Foundation.Fields
