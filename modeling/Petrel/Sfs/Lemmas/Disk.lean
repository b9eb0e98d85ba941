import Petrel.Sfs.Disk

/-!
# Words of blocks and paths of files
-/

namespace Petrel.Sfs

open Petrel.Lib Petrel.Kern

variable {d : Disk} {b c i j v : Nat} {k : Block}

theorem word_lt : word k i < 2 ^ 32 := getBE_lt

theorem word_setWord : word (setWord k i v) j = if j = i then v % 2 ^ 32 else word k j := by
  split
  · rename_i h
    subst h
    exact getBE_setBE_same
  rename_i h
  exact getBE_setBE_of_disjoint (by omega)

theorem word_setSfiSize (hj : 2 ≤ j) : word (setSfiSize k v) j = word k j := by
  rw [show setSfiSize k v = setWord k 0 v from rfl, word_setWord, if_neg (by omega)]

@[simp] theorem word_zeroBlock : word zeroBlock i = 0 := by
  simp [word, getBE, zeroBlock]

@[simp] theorem Disk.set_self : d.set b k b = k := if_pos rfl

theorem Disk.set_of_ne (h : c ≠ b) : d.set b k c = d c := if_neg h

theorem words_setWord (hv : v < 2 ^ 32) : words (d.set b (setWord (d b) i v)) = updEntry (words d) b i v := by
  funext b' j
  simp only [words, updEntry, Disk.set]
  by_cases hb : b' = b
  · subst hb
    simp only [↓reduceIte, true_and, word_setWord, Nat.mod_eq_of_lt hv]
  · simp [hb]

theorem dbperidb_eq : dbperidb = 128 := rfl
theorem ndirect_eq : ndirect = 15 := rfl
theorem maxFileblock_eq : maxFileblock = 15 + 128 + 128 * 128 + 128 * 128 * 128 := rfl

theorem isFilePath_closed {p q} (hq : IsFilePath q) (hp : p <+: q) : IsFilePath p := by
  cases p with
  | nil => trivial
  | cons w os =>
    cases q with
    | nil => exact absurd hp (by simp)
    | cons w' os' =>
      obtain ⟨rfl, hpre⟩ := List.cons_prefix_cons.1 hp
      obtain ⟨h1, h2, h3, h4⟩ := hq
      exact ⟨h1, h2, le_trans hpre.length_le h3, fun o ho => h4 o (hpre.subset ho)⟩

theorem indirOf_cases {fb} (h : fb < maxFileblock) : ((indirOf fb).1 = 0 ∧ fb < 15 ∧ (indirOf fb).2 = fb) ∨
      ((indirOf fb).1 = 1 ∧ (indirOf fb).2 < 128 ∧ fb = 15 + (indirOf fb).2) ∨
      ((indirOf fb).1 = 2 ∧ (indirOf fb).2 < 128 * 128 ∧ fb = 15 + 128 + (indirOf fb).2) ∨
      ((indirOf fb).1 = 3 ∧ (indirOf fb).2 < 128 * 128 * 128 ∧ fb = 15 + 128 + 128 * 128 + (indirOf fb).2) := by
  unfold indirOf
  simp only [maxFileblock_eq, dbperidb_eq, ndirect_eq] at *
  by_cases h1 : fb < 15
  · exact .inl (by simp [h1])
  by_cases h2 : 128 + 128 * 128 ≤ fb - 15
  · refine .inr (.inr (.inr ?_))
    simp only [h1, h2, ↓reduceIte, true_and]
    omega
  by_cases h3 : 128 ≤ fb - 15
  · refine .inr (.inr (.inl ?_))
    simp only [h1, h2, h3, ↓reduceIte, true_and]
    omega
  refine .inr (.inl ?_)
  simp only [h1, h2, h3, ↓reduceIte, true_and]
  omega

theorem pathBelow_one (off : Nat) : pathBelow 1 off = [off] := rfl

theorem pathBelow_two (off : Nat) : pathBelow 2 off = [off / 128, off % 128] := by
  have : off - off / 128 * 128 = off % 128 := by omega
  simp only [pathBelow, idoff, dbperidb_eq, this]

theorem pathBelow_three (off : Nat) : pathBelow 3 off = [off / 16384, off % 16384 / 128, off % 16384 % 128] := by
  have h1 : off - off / 16384 * 16384 = off % 16384 := by omega
  have h2 : off % 16384 - off % 16384 / 128 * 128 = off % 16384 % 128 := by omega
  simp only [pathBelow, idoff, dbperidb_eq, Nat.reduceMul, h1, h2]

theorem filePath_cases {fb} (h : fb < maxFileblock) : (fb < 15 ∧ filePath fb = [2 + fb]) ∨
      (∃ a, a < 128 ∧ fb = 15 + a ∧ filePath fb = [17, a]) ∨
      (∃ a b, a < 128 ∧ b < 128 ∧ fb = 15 + 128 + (a * 128 + b) ∧ filePath fb = [18, a, b]) ∨
      ∃ a b c, a < 128 ∧ b < 128 ∧ c < 128 ∧ fb = 15 + 128 + 16384 + (a * 16384 + b * 128 + c) ∧
        filePath fb = [19, a, b, c] := by
  unfold filePath
  rcases indirOf_cases h with ⟨h1, h2, h3⟩ | ⟨h1, h2, h3⟩ | ⟨h1, h2, h3⟩ | ⟨h1, h2, h3⟩
  · left
    simp only [h1, ↓reduceIte, h3, directWord, and_true]
    exact h2
  · right; left
    simp only [h1, Nat.one_ne_zero, ↓reduceIte, pathBelow_one, indirWord]
    exact ⟨_, h2, h3, rfl⟩
  · right; right; left
    simp only [h1, Nat.reduceEqDiff, ↓reduceIte, pathBelow_two, indirWord]
    exact ⟨_, _, by omega, by omega, by omega, rfl⟩
  right; right; right
  simp only [h1, Nat.reduceEqDiff, ↓reduceIte, pathBelow_three, indirWord]
  exact ⟨_, _, _, by omega, by omega, by omega, by omega, rfl⟩

theorem filePath_direct {a} (ha : a < 15) : filePath a = [2 + a] := by
  rcases filePath_cases (show a < maxFileblock by rw [maxFileblock_eq]; omega) with
    ⟨-, hp⟩ | ⟨a', -, h, -⟩ | ⟨a', b', -, -, h, -⟩ | ⟨a', b', c', -, -, -, h, -⟩
  · exact hp
  all_goals omega

theorem filePath_one {a} (ha : a < 128) : 15 + a < maxFileblock ∧ filePath (15 + a) = [17, a] := by
  have hmax : 15 + a < maxFileblock := by rw [maxFileblock_eq]; omega
  refine ⟨hmax, ?_⟩
  rcases filePath_cases hmax with ⟨h, -⟩ | ⟨a', -, h, hp⟩ | ⟨a', b', -, -, h, -⟩ | ⟨a', b', c', -, -, -, h, -⟩
  · omega
  · rw [hp, show a' = a by omega]
  all_goals omega

theorem filePath_two {a b} (ha : a < 128) (hb : b < 128) :
    15 + 128 + (a * 128 + b) < maxFileblock ∧ filePath (15 + 128 + (a * 128 + b)) = [18, a, b] := by
  have hmax : 15 + 128 + (a * 128 + b) < maxFileblock := by rw [maxFileblock_eq]; omega
  refine ⟨hmax, ?_⟩
  rcases filePath_cases hmax with ⟨h, -⟩ | ⟨a', h', h, -⟩ | ⟨a', b', _, _, h, hp⟩ | ⟨a', b', c', -, -, -, h, -⟩
  · omega
  · omega
  · rw [hp, show a' = a by omega, show b' = b by omega]
  · omega

theorem filePath_three {a b c} (ha : a < 128) (hb : b < 128) (hc : c < 128) :
    15 + 128 + 16384 + (a * 16384 + b * 128 + c) < maxFileblock ∧
      filePath (15 + 128 + 16384 + (a * 16384 + b * 128 + c)) = [19, a, b, c] := by
  have hmax : 15 + 128 + 16384 + (a * 16384 + b * 128 + c) < maxFileblock := by
    rw [maxFileblock_eq]; omega
  refine ⟨hmax, ?_⟩
  rcases filePath_cases hmax with ⟨h, -⟩ | ⟨a', h', h, -⟩ | ⟨a', b', _, _, h, -⟩ | ⟨a', b', c', _, _, _, h, hp⟩
  · omega
  · omega
  · omega
  · rw [hp, show a' = a by omega, show b' = b by omega, show c' = c by omega]

theorem filePath_ne_nil {fb} (h : fb < maxFileblock) : filePath fb ≠ [] := by
  rcases filePath_cases h with ⟨-, e⟩ | ⟨a, -, -, e⟩ | ⟨a, a', -, -, -, e⟩ | ⟨a, a', a'', -, -, -, -, e⟩ <;>
    rw [e] <;> simp

theorem isFilePath_filePath {fb} (h : fb < maxFileblock) : IsFilePath (filePath fb) := by
  rcases filePath_cases h with ⟨h1, hp⟩ | ⟨a, ha, -, hp⟩ | ⟨a, b, ha, hb, -, hp⟩ |
      ⟨a, b, c, ha, hb, hc, -, hp⟩ <;> rw [hp] <;> simp [IsFilePath, dbperidb_eq] <;> omega

theorem walk_words_lt {p} (hb : b < 2 ^ 32) : walk (words d) b p < 2 ^ 32 :=
  walk_lt (fun _ _ => word_lt) hb

theorem FileOk.of_single {m ino} (hino : ino ≠ 0)
    (hz : ∀ w, 2 ≤ w → w ≤ 19 → w ≠ 17 → word (d ino) w = 0) (hne : word (d ino) 17 ≠ ino)
    (hent : ∀ o, word (d (word (d ino) 17)) o ≠ 0 → word (d (word (d ino) 17)) o ≠ ino ∧
      word (d (word (d ino) 17)) o ≠ word (d ino) 17)
    (hinj : ∀ o o', word (d (word (d ino) 17)) o ≠ 0 →
      word (d (word (d ino) 17)) o = word (d (word (d ino) 17)) o' → o = o')
    (h0 : bitmapIsset m 0 = true) (h1 : bitmapIsset m ino = true)
    (h2 : word (d ino) 17 ≠ 0 → bitmapIsset m (word (d ino) 17) = true)
    (h3 : ∀ o, word (d (word (d ino) 17)) o ≠ 0 → bitmapIsset m (word (d (word (d ino) 17)) o) = true) :
    FileOk d m ino := by
  have hshape : ∀ {p}, IsFilePath p → walk (words d) ino p ≠ 0 →
      (p = [] ∧ walk (words d) ino p = ino) ∨ (p = [17] ∧ walk (words d) ino p = word (d ino) 17) ∨
        ∃ o, p = [17, o] ∧ walk (words d) ino p = word (d (word (d ino) 17)) o := by
    intro p hp hne'
    cases p with
    | nil => exact .inl ⟨rfl, rfl⟩
    | cons w os =>
      rw [walk_cons hino, words] at hne'
      by_cases hw : w = 17
      · subst hw
        have hI : word (d ino) 17 ≠ 0 := by
          intro hI
          rw [hI, walk_zero] at hne'
          exact hne' rfl
        rcases os with - | ⟨o, - | ⟨o', os⟩⟩
        · exact .inr (.inl ⟨rfl, walk_cons hino⟩)
        · exact .inr (.inr ⟨o, rfl, (walk_cons hino).trans (walk_cons hI)⟩)
        · exact absurd hp.2.2.1 (by simp)
      rw [hz w hp.1 hp.2.1 hw, walk_zero] at hne'
      exact absurd rfl hne'
  refine ⟨⟨hino, isFilePath_closed, fun {p q} hp hq hp0 he => ?_⟩, fun {p} hp hp0 => ?_, h0⟩
  · have hq0 := he ▸ hp0
    rcases hshape hp hp0 with ⟨rfl, e⟩ | ⟨rfl, e⟩ | ⟨o, rfl, e⟩ <;>
      rcases hshape hq hq0 with ⟨rfl, e'⟩ | ⟨rfl, e'⟩ | ⟨o', rfl, e'⟩ <;>
      have heq := e.symm.trans (he.trans e') <;> rw [e] at hp0 <;> rw [e'] at hq0
    · exact absurd heq.symm hne
    · exact absurd heq.symm (hent o' hq0).1
    · exact absurd heq hne
    · exact absurd heq.symm (hent o' hq0).2
    · exact absurd heq (hent o hp0).1
    · exact absurd heq (hent o hp0).2
    · rw [hinj o o' hp0 heq]
  rcases hshape hp hp0 with ⟨rfl, e⟩ | ⟨rfl, e⟩ | ⟨o, rfl, e⟩ <;> rw [e] at hp0 ⊢
  · exact h1
  · exact h2 hp0
  · exact h3 o hp0

theorem eq_of_filePath_below {fb fb'} (h : fb < maxFileblock) (h' : fb' < maxFileblock)
    (hp : filePath fb' <+: filePath fb) : fb' = fb := by
  rcases filePath_cases h with ⟨h1, e⟩ | ⟨a, ha, h1, e⟩ | ⟨a, b, ha, hb, h1, e⟩ | ⟨a, b, c, ha, hb, hc, h1, e⟩ <;>
    rcases filePath_cases h' with ⟨h2, e'⟩ | ⟨a', ha', h2, e'⟩ | ⟨a', b', ha', hb', h2, e'⟩ |
      ⟨a', b', c', ha', hb', hc', h2, e'⟩ <;>
    rw [e, e'] at hp <;> simp [List.cons_prefix_cons] at hp <;> omega

end Petrel.Sfs
