import LoomDB.Foundations.Bytes

/-!
# Self-delimiting encodings

An encoding delimits itself when a value can be told from the front of any text that starts
with its encoding. Such encodings can be written one after the other: two texts that are the
same were made of the same values. A length in front makes a byte string one of them, and a
count in front a list.
-/

namespace LoomDB

/-- Texts that start with the encodings of two values, and are the same, have the same value in
front and the same rest. -/
def Delimits {α : Type} (encode : α → Bytes) (valid : α → Prop) : Prop :=
  ∀ {left right : α} {restLeft restRight : Bytes}, valid left → valid right →
    encode left ++ restLeft = encode right ++ restRight → left = right ∧ restLeft = restRight

/-- A byte string behind its length. -/
def lengthPrefixed (width : ℕ) (bytes : Bytes) : Bytes :=
  leBytes width bytes.length ++ bytes

section Delimits

variable {α : Type} {encode : α → Bytes} {valid : α → Prop} {width : ℕ}

theorem Delimits.injective (hdelimits : Delimits encode valid) {left right : α}
    (hleft : valid left) (hright : valid right) (heq : encode left = encode right) :
    left = right := by
  have hsame : encode left ++ [] = encode right ++ [] := by rw [heq]
  exact (hdelimits hleft hright hsame).1

/-- Encodings of one length delimit themselves if they are injective. -/
theorem delimits_of_length {length : ℕ} (hlength : ∀ value, (encode value).length = length)
    (hinjective : ∀ left right, valid left → valid right → encode left = encode right →
      left = right) : Delimits encode valid := by
  intro left right restLeft restRight hleft hright heq
  obtain ⟨hencode, hrest⟩ := List.append_inj heq ((hlength left).trans (hlength right).symm)
  exact ⟨hinjective left right hleft hright hencode, hrest⟩

theorem delimits_leBytes (width : ℕ) : Delimits (leBytes width) fun value => value < 256 ^ width := by
  apply delimits_of_length (length_leBytes width)
  intro left right hleft hright heq
  calc left = leValue (leBytes width left) := (leValue_leBytes hleft).symm
    _ = leValue (leBytes width right) := by rw [heq]
    _ = right := leValue_leBytes hright

theorem delimits_lengthPrefixed (width : ℕ) :
    Delimits (lengthPrefixed width) fun bytes => bytes.length < 256 ^ width := by
  intro left right restLeft restRight hleft hright heq
  rw [lengthPrefixed, lengthPrefixed, List.append_assoc, List.append_assoc] at heq
  obtain ⟨hlength, hrest⟩ := delimits_leBytes width hleft hright heq
  exact List.append_inj hrest hlength

/-- Texts of one length delimit themselves. -/
theorem delimits_fixed (length : ℕ) :
    Delimits (fun bytes : Bytes => bytes) fun bytes => bytes.length = length := by
  intro left right restLeft restRight hleft hright heq
  exact List.append_inj heq (hleft.trans hright.symm)

/-- A text behind which a byte stands that it does not contain. -/
theorem delimits_terminated (stop : Byte) :
    Delimits (fun bytes : Bytes => bytes ++ [stop]) fun bytes => stop ∉ bytes := by
  intro left
  induction left with
  | nil =>
      intro right restLeft restRight _ hright heq
      cases right with
      | nil => exact ⟨rfl, (List.cons.inj heq).2⟩
      | cons byte right =>
          exact absurd ((List.cons.inj heq).1 ▸ List.mem_cons_self) hright
  | cons byte left ih =>
      intro right restLeft restRight hleft hright heq
      cases right with
      | nil => exact absurd ((List.cons.inj heq).1 ▸ List.mem_cons_self) hleft
      | cons other right =>
          obtain ⟨hbyte, hrest⟩ := List.cons.inj heq
          obtain ⟨htexts, hrests⟩ := ih (fun hmem => hleft (List.mem_cons_of_mem _ hmem))
            (fun hmem => hright (List.mem_cons_of_mem _ hmem)) hrest
          exact ⟨by rw [hbyte, htexts], hrests⟩

/-- One after the other, two encodings delimit a pair. -/
theorem Delimits.pair {β : Type} {encode' : β → Bytes} {valid' : β → Prop}
    (hfirst : Delimits encode valid) (hsecond : Delimits encode' valid') :
    Delimits (fun pair : α × β => encode pair.1 ++ encode' pair.2) fun pair =>
      valid pair.1 ∧ valid' pair.2 := by
  intro left right restLeft restRight hleft hright heq
  rw [List.append_assoc, List.append_assoc] at heq
  obtain ⟨heqFirst, hrest⟩ := hfirst hleft.1 hright.1 heq
  obtain ⟨heqSecond, hrest⟩ := hsecond hleft.2 hright.2 hrest
  exact ⟨Prod.ext heqFirst heqSecond, hrest⟩

/-- A list that ends the text needs no count, if none of its items is written as nothing. -/
theorem Delimits.flatMap_injective (hdelimits : Delimits encode valid)
    (hwritten : ∀ value, valid value → encode value ≠ []) {left right : List α}
    (hleft : ∀ value ∈ left, valid value) (hright : ∀ value ∈ right, valid value)
    (heq : left.flatMap encode = right.flatMap encode) : left = right := by
  induction left generalizing right with
  | nil =>
      cases right with
      | nil => rfl
      | cons other right =>
          have hnil := (List.append_eq_nil_iff.mp heq.symm).1
          exact absurd hnil (hwritten other (hright other List.mem_cons_self))
  | cons first left ih =>
      cases right with
      | nil =>
          have hnil := (List.append_eq_nil_iff.mp heq).1
          exact absurd hnil (hwritten first (hleft first List.mem_cons_self))
      | cons other right =>
          obtain ⟨hfirst, hrest⟩ :=
            hdelimits (hleft first List.mem_cons_self) (hright other List.mem_cons_self) heq
          rw [hfirst, ih (fun value hmem => hleft value (List.mem_cons_of_mem _ hmem))
            (fun value hmem => hright value (List.mem_cons_of_mem _ hmem)) hrest]

/-- A list of a known length delimits itself if its items do. -/
theorem Delimits.flatMap (hdelimits : Delimits encode valid) {left right : List α}
    {restLeft restRight : Bytes} (hlength : left.length = right.length)
    (hleft : ∀ value ∈ left, valid value) (hright : ∀ value ∈ right, valid value)
    (heq : left.flatMap encode ++ restLeft = right.flatMap encode ++ restRight) :
    left = right ∧ restLeft = restRight := by
  induction left generalizing right with
  | nil =>
      obtain rfl := List.length_eq_zero_iff.mp hlength.symm
      exact ⟨rfl, heq⟩
  | cons first left ih =>
      cases right with
      | nil => cases hlength
      | cons other right =>
          rw [List.flatMap_cons, List.flatMap_cons, List.append_assoc, List.append_assoc] at heq
          obtain ⟨hfirst, hrest⟩ :=
            hdelimits (hleft first List.mem_cons_self) (hright other List.mem_cons_self) heq
          obtain ⟨hitems, hrest⟩ := ih (Nat.succ.inj hlength)
            (fun value hmem => hleft value (List.mem_cons_of_mem _ hmem))
            (fun value hmem => hright value (List.mem_cons_of_mem _ hmem)) hrest
          exact ⟨by rw [hfirst, hitems], hrest⟩

/-- A list behind its count delimits itself. -/
theorem Delimits.counted (hdelimits : Delimits encode valid) (width : ℕ) :
    Delimits (fun items : List α => leBytes width items.length ++ items.flatMap encode) fun items =>
      items.length < 256 ^ width ∧ ∀ value ∈ items, valid value := by
  intro left right restLeft restRight hleft hright heq
  rw [List.append_assoc, List.append_assoc] at heq
  obtain ⟨hlength, hrest⟩ := delimits_leBytes width hleft.1 hright.1 heq
  exact hdelimits.flatMap hlength hleft.2 hright.2 hrest

end Delimits

/-! ## Signed texts -/

/-- A signature that is accepted over the text of a claim was made over the text of a claim
that was signed. -/
def AcceptsSigned {Claim : Type} (accepts : Bytes → Bytes → Bool) (text : Claim → Bytes)
    (signed : Claim → Prop) : Prop :=
  ∀ claim signature, accepts (text claim) signature = true →
    ∃ origin, signed origin ∧ text origin = text claim

/-- Where the texts tell the signed claims from this one, this one was signed. -/
theorem AcceptsSigned.signed {Claim : Type} {accepts : Bytes → Bytes → Bool} {text : Claim → Bytes}
    {signed : Claim → Prop} (hunforgeable : AcceptsSigned accepts text signed) {claim : Claim}
    {signature : Bytes} (haccepts : accepts (text claim) signature = true)
    (htells : ∀ origin, signed origin → text origin = text claim → origin = claim) :
    signed claim := by
  obtain ⟨origin, hsigned, htext⟩ := hunforgeable claim signature haccepts
  exact htells origin hsigned htext ▸ hsigned

end LoomDB
