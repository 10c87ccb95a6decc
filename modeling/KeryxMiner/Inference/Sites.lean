import KeryxMiner.Bytes
import KeryxMiner.Inference.Draws
import KeryxMiner.Weighted

/-!
# Weighted sites

The residual site of an opening and, in the half of the draws that are not uniform, the child of an
attention node are drawn in proportion to weights: a loop takes the weights off a remainder of the
drawn word. Both are `Weighted.pick`, as long as the total of the weights fits 64 bits
(`draws_in_proportion`).
-/

namespace KeryxMiner.Inference

open Weighted

/-! ## Residual sites -/

/-- The loop of `resid_site` from site `j` on, of which `left` are left; `none` if it runs out. -/
def residSiteLoop (nSites : UInt64) : (left : Nat) → (j x : UInt64) → Option UInt64
  | 0, _, _ => none
  | left + 1, j, x =>
    if x < nSites - j then some j else residSiteLoop nSites left (j + 1) (x - (nSites - j))

/-- What the loop starts with. -/
def residRemainder (d1 nSites : UInt64) : UInt64 :=
  let total := nSites * (nSites + 1) / 2
  d1 % if total < 1 then 1 else total

/-- `resid_site` on the words of the source; `residSite` is the same without overflow. -/
def residSite64 (d1 nSites : UInt64) : UInt64 :=
  (residSiteLoop nSites nSites.toNat 0 (residRemainder d1 nSites)).getD 0

/-! ## Children -/

/-- Share of the uniform draw among children, out of 8. -/
def uniformEighths : UInt8 := 4

/-- The hash a child is drawn with. -/
def childHash (h : Blake3) (rand : Hash) : Hash :=
  blake3 h (rand.toList ++ "attn-child-w".toUTF8.data.toList)

/-- The drawn word. -/
def childWord (h : Blake3) (rand : Hash) : Nat := leAt 8 (childHash h rand).toList 8

def drawsUniformly (h : Blake3) (rand : Hash) : Bool := (childHash h rand)[0] &&& 7 < uniformEighths

/-- The loop of `draw_weighted_child` from child `i` on; `none` if it runs out. -/
def childLoop : (weights : List UInt16) → (i x : Nat) → Option Nat
  | [], _, _ => none
  | w :: weights, i, x => if x < w.toNat then some i else childLoop weights (i + 1) (x - w.toNat)

def drawWeightedChild (h : Blake3) (rand : Hash) (weights : List UInt16) : Nat :=
  let n := max weights.length 1
  let r := childWord h rand
  if drawsUniformly h rand then r % n
  else
    let total := (weights.map UInt16.toNat).sum % 2 ^ 64
    (childLoop weights 0 (r % max total 1)).getD (n - 1)

variable {n d1 j x : UInt64} {left i r : Nat} {h : Blake3} {rand : Hash} {weights : List UInt16}

/-! ## The loop over sites -/

theorem residSiteLoop_eq (hj : j.toNat + left = n.toNat) :
    (residSiteLoop n left j x).map UInt64.toNat =
      (pick (countdown left) x.toNat).map (j.toNat + ·) := by
  induction left generalizing j x with
  | zero => rfl
  | succ left ih =>
    have hn := n.toNat_lt
    have hweight : (n - j).toNat = left + 1 := by
      rw [UInt64.toNat_sub_of_le _ _ (UInt64.le_iff_toNat_le.mpr (by omega))]
      omega
    have hnext : (j + 1).toNat = j.toNat + 1 := by
      rw [UInt64.toNat_add, UInt64.toNat_one, Nat.mod_eq_of_lt (by omega)]
    have hlt : x < n - j ↔ x.toNat < left + 1 := by rw [UInt64.lt_iff_toNat_lt, hweight]
    rw [residSiteLoop, countdown, pick]
    by_cases hx : x < n - j
    · rw [if_pos hx, if_pos (hlt.mp hx)]
      rfl
    · rw [if_neg hx, if_neg (mt hlt.mpr hx)]
      have hle : ¬x.toNat < left + 1 := mt hlt.mpr hx
      have hrest : (x - (n - j)).toNat = x.toNat - (left + 1) := by
        rw [UInt64.toNat_sub_of_le _ _ (UInt64.le_iff_toNat_le.mpr (by omega)), hweight]
      rw [ih (by omega), hrest, hnext, Option.map_map]
      congr 1
      funext k
      simp only [Function.comp_apply]
      omega

/-- The total of the weights fits. -/
theorem residRemainder_eq (hpos : 1 ≤ n.toNat) (hn : n.toNat < 2 ^ 32) :
    (residRemainder d1 n).toNat = d1.toNat % (n.toNat * (n.toNat + 1) / 2) := by
  have hle : n.toNat * (n.toNat + 1) ≤ (2 ^ 32 - 1) * 2 ^ 32 :=
    Nat.mul_le_mul (by omega) (by omega)
  have hge : 1 * 2 ≤ n.toNat * (n.toNat + 1) := Nat.mul_le_mul hpos (by omega)
  have htotal : (n * (n + 1) / 2).toNat = n.toNat * (n.toNat + 1) / 2 := by
    have hsucc : (n + 1).toNat = n.toNat + 1 := by
      rw [UInt64.toNat_add, UInt64.toNat_one, Nat.mod_eq_of_lt (by omega)]
    rw [UInt64.toNat_div, UInt64.toNat_mul, hsucc, Nat.mod_eq_of_lt (by omega)]
    rfl
  have hnot : ¬n * (n + 1) / 2 < 1 := by
    rw [UInt64.lt_iff_toNat_lt, htotal, UInt64.toNat_one]
    omega
  rw [residRemainder, if_neg hnot, UInt64.toNat_mod, htotal]

theorem residSiteFrom_of_pick {left j x i : Nat} (hi : pick (countdown left) x = some i) :
    residSiteFrom x j left = j + i := by
  induction left generalizing j x i with
  | zero => cases hi
  | succ left ih =>
    rw [countdown, pick] at hi
    rw [residSiteFrom]
    split at hi
    · next hlt =>
      obtain rfl := Option.some.inj hi
      rw [if_pos hlt]
      rfl
    · next hlt =>
      obtain ⟨i', hi', rfl⟩ := Option.map_eq_some_iff.mp hi
      rw [if_neg hlt, ih hi']
      omega

/-- The site of the checks is the part that the remainder falls in. -/
theorem pick_residSite {d k : Nat} (hpos : 1 ≤ k) :
    pick (countdown k) (d % (k * (k + 1) / 2)) = some (residSite d k) := by
  have hge : 1 * 2 ≤ k * (k + 1) := Nat.mul_le_mul hpos (by omega)
  have hsome : (pick (countdown k) (d % (k * (k + 1) / 2))).isSome := by
    rw [isSome_pick, sum_countdown]
    exact Nat.mod_lt _ (by omega)
  obtain ⟨site, hsite⟩ := Option.isSome_iff_exists.mp hsome
  rw [hsite, residSite, max_eq_left (by omega), residSiteFrom_of_pick hsite, Nat.zero_add]

/-- Without overflow the loop finds the site of the checks. -/
theorem residSiteLoop_remainder (hpos : 1 ≤ n.toNat) (hn : n.toNat < 2 ^ 32) :
    ∃ site, residSiteLoop n n.toNat 0 (residRemainder d1 n) = some site ∧
      site.toNat = residSite d1.toNat n.toNat := by
  have hloop := @residSiteLoop_eq n 0 (residRemainder d1 n) n.toNat (Nat.zero_add _)
  have hzero : ((0 : UInt64).toNat + ·) = id := by
    funext k
    exact Nat.zero_add k
  rw [residRemainder_eq hpos hn, hzero, Option.map_id, id, pick_residSite hpos] at hloop
  obtain ⟨site, hsite, hnat⟩ := Option.map_eq_some_iff.mp hloop
  exact ⟨site, hsite, hnat⟩

theorem residSite64_eq (hpos : 1 ≤ n.toNat) (hn : n.toNat < 2 ^ 32) :
    (residSite64 d1 n).toNat = residSite d1.toNat n.toNat := by
  obtain ⟨site, hsite, hnat⟩ := @residSiteLoop_remainder n d1 hpos hn
  rwa [residSite64, hsite, Option.getD_some]

/-- Every draw finds a site, by its remainder of the total, and site `j` has `n - j` remainders. -/
def SitesRight (n : UInt64) : Prop :=
  let total := n.toNat * (n.toNat + 1) / 2
  (∀ d1, (residSiteLoop n n.toNat 0 (residRemainder d1 n)).isSome) ∧
    (∀ d1, residSite64 d1 n = residSite64 (UInt64.ofNat (d1.toNat % total)) n) ∧
    ∀ j < n.toNat, ((Finset.range total).filter fun x =>
      (residSite64 (UInt64.ofNat x) n).toNat = j).card = n.toNat - j

theorem sitesRight (hpos : 1 ≤ n.toNat) (hn : n.toNat < 2 ^ 32) : SitesRight n := by
  have hle : n.toNat * (n.toNat + 1) ≤ (2 ^ 32 - 1) * 2 ^ 32 :=
    Nat.mul_le_mul (by omega) (by omega)
  have hge : 1 * 2 ≤ n.toNat * (n.toNat + 1) := Nat.mul_le_mul hpos (by omega)
  have hsite : ∀ d1, pick (countdown n.toNat) (d1.toNat % (n.toNat * (n.toNat + 1) / 2)) =
      some (residSite64 d1 n).toNat := by
    intro d1
    rw [residSite64_eq hpos hn]
    exact pick_residSite hpos
  have hword : ∀ x < n.toNat * (n.toNat + 1) / 2, (UInt64.ofNat x).toNat = x :=
    fun x hx => UInt64.toNat_ofNat_of_lt' (Nat.lt_of_lt_of_le hx (by unfold UInt64.size; omega))
  refine ⟨fun d1 => ?_, fun d1 => ?_, fun j hj => ?_⟩
  · obtain ⟨site, hloop, -⟩ := @residSiteLoop_remainder n d1 hpos hn
    rw [hloop]
    rfl
  · have hrem := hsite (UInt64.ofNat (d1.toNat % (n.toNat * (n.toNat + 1) / 2)))
    rw [hword _ (Nat.mod_lt _ (by omega)), Nat.mod_mod, hsite d1] at hrem
    exact UInt64.toNat_inj.mp (Option.some.inj hrem)
  · have hlt : j < (countdown n.toNat).length := by rwa [length_countdown]
    rw [← getElem_countdown hlt, ← card_pick hlt, sum_countdown]
    congr 1
    apply Finset.filter_congr
    intro x hx
    have hx := Finset.mem_range.mp hx
    have hpick := hsite (UInt64.ofNat x)
    rw [hword x hx, Nat.mod_eq_of_lt hx] at hpick
    rw [hpick, Option.some.injEq]

/-! ## The draw among children -/

theorem childLoop_eq : childLoop weights i r = (pick (weights.map UInt16.toNat) r).map (i + ·) := by
  induction weights generalizing i r with
  | nil => rfl
  | cons w weights ih =>
    rw [childLoop, List.map_cons, pick]
    split
    · rfl
    · rw [ih, Option.map_map]
      congr 1
      funext k
      simp only [Function.comp_apply]
      omega

theorem childLoop_zero : childLoop weights 0 r = pick (weights.map UInt16.toNat) r := by
  have hzero : (0 + · : Nat → Nat) = id := by
    funext k
    exact Nat.zero_add k
  rw [childLoop_eq, hzero, Option.map_id]
  rfl

/-- The drawn child is there: the uniform one, or the one whose weight the drawn word falls in. -/
theorem drawWeightedChild_eq (hpos : 0 < (weights.map UInt16.toNat).sum)
    (hfits : (weights.map UInt16.toNat).sum < 2 ^ 64) :
    drawWeightedChild h rand weights < weights.length ∧
      if drawsUniformly h rand then
        drawWeightedChild h rand weights = childWord h rand % weights.length
      else childLoop weights 0 (childWord h rand % (weights.map UInt16.toNat).sum) =
        some (drawWeightedChild h rand weights) := by
  have hlen : 0 < weights.length := by
    cases weights with
    | nil => cases hpos
    | cons w weights => exact Nat.succ_pos _
  rw [drawWeightedChild, max_eq_left hlen, Nat.mod_eq_of_lt hfits]
  dsimp only
  rw [max_eq_left hpos]
  split
  · exact ⟨Nat.mod_lt _ hlen, rfl⟩
  · have hsome : (pick (weights.map UInt16.toNat)
        (childWord h rand % (weights.map UInt16.toNat).sum)).isSome :=
      isSome_pick.mpr (Nat.mod_lt _ hpos)
    obtain ⟨child, hchild⟩ := Option.isSome_iff_exists.mp hsome
    rw [childLoop_zero, hchild, Option.getD_some]
    exact ⟨by simpa using (pick_eq_some.mp hchild).1, rfl⟩

/-- A hash with one byte in front. -/
def randOf (b : UInt8) : Hash := ⟨(b :: List.replicate 31 0).toArray, rfl⟩

/-- BLAKE3 on three of the inputs of `draw_weighted_child`. -/
def knownHash : Blake3 where
  nonRoot _ _ := Vector.replicate 32 0
  root _ _ := Vector.replicate 32 0
  chunkCv _ _ := Vector.replicate 32 0
  chunkRoot data :=
    match data.head? with
    | some 2 => #v[11, 246, 87, 192, 201, 80, 29, 226, 81, 57, 195, 97, 145, 55, 190, 175, 114, 40, 10, 2, 123, 226,
      71, 24, 26, 198, 163, 216, 248, 59, 126, 5]
    | some 14 => #v[161, 9, 123, 0, 70, 198, 120, 154, 60, 188, 162, 119, 224, 213, 48, 86, 234, 63, 47, 25, 139, 174,
      119, 29, 185, 113, 14, 116, 14, 202, 124, 87]
    | _ => #v[213, 102, 69, 124, 143, 74, 200, 52, 104, 194, 246, 71, 135, 132, 217, 119, 9, 145, 177, 252, 39, 144,
      203, 81, 99, 26, 94, 220, 230, 171, 192, 43]

theorem childHash_known {b : UInt8} :
    childHash knownHash (randOf b) = knownHash.chunkRoot (b :: List.replicate 31 0 ++
      "attn-child-w".toUTF8.data.toList) := by
  have hlen : ((randOf b).toList ++ "attn-child-w".toUTF8.data.toList).length ≤ b3Chunk := by
    rw [List.length_append, Vector.length_toList]
    decide
  rw [childHash, blake3_of_one hlen]
  rfl

/-- Sites whose weights have a total that fits are drawn in proportion to them, and so are children
unless the draw is uniform. -/
theorem draws_in_proportion :
    (∀ n : UInt64, 1 ≤ n.toNat → n.toNat < 2 ^ 32 → SitesRight n) ∧
      ∀ (h : Blake3) (rand : Hash) (weights : List UInt16),
        let total := (weights.map UInt16.toNat).sum
        0 < total → total < 2 ^ 64 →
          drawWeightedChild h rand weights < weights.length ∧
          (if drawsUniformly h rand then
            drawWeightedChild h rand weights = childWord h rand % weights.length
          else childLoop weights 0 (childWord h rand % total) =
            some (drawWeightedChild h rand weights)) ∧
          ∀ (i : Nat) (hi : i < weights.length), ((Finset.range total).filter fun x =>
            childLoop weights 0 x = some i).card = weights[i].toNat := by
  refine ⟨fun n hpos hn => sitesRight hpos hn, ?_⟩
  intro h rand weights total hpos hfits
  obtain ⟨hlt, hdraw⟩ := @drawWeightedChild_eq h rand weights hpos hfits
  refine ⟨hlt, hdraw, fun i hi => ?_⟩
  have hi' : i < (weights.map UInt16.toNat).length := by rwa [List.length_map]
  have hcard := card_pick hi'
  rw [List.getElem_map] at hcard
  rw [← hcard]
  congr 1
  apply Finset.filter_congr
  intro x _
  rw [childLoop_zero]

theorem draws_in_proportion_known :
    SitesRight 8 ∧ drawWeightedChild knownHash (randOf 0) [2, 1] = 0 ∧
      ((Finset.range 3).filter fun x => childLoop [2, 1] 0 x = some 0).card = 2 := by
  obtain ⟨hsites, hchildren⟩ := draws_in_proportion
  obtain ⟨-, hdraw, hcount⟩ := hchildren knownHash (randOf 0) [2, 1] (by decide) (by decide)
  have hword : childWord knownHash (randOf 0) = 8636079477022442088 := by
    rw [childWord, childHash_known]
    rfl
  have hweighted : ¬drawsUniformly knownHash (randOf 0) := by
    rw [drawsUniformly, childHash_known]
    decide
  rw [if_neg hweighted, hword] at hdraw
  exact ⟨hsites 8 (by decide) (by decide), (Option.some.inj hdraw).symm, hcount 0 (by decide)⟩

/-! ## Draws that go by something else -/

/-- The total of `2 ^ 32` sites overflows, and the first one is drawn always. -/
theorem residSite64_overflow : residSite64 d1 4294967296 = 0 := by
  have hrem : residRemainder d1 4294967296 < 4294967296 - 0 := by
    have htotal : residRemainder d1 4294967296 = d1 % 2147483648 := rfl
    rw [htotal, UInt64.lt_iff_toNat_lt, UInt64.toNat_mod]
    exact Nat.lt_of_lt_of_le (Nat.mod_lt _ (by decide)) (by decide)
  have hleft : (4294967296 : UInt64).toNat = 4294967295 + 1 := rfl
  rw [residSite64, hleft, residSiteLoop, if_pos hrem]
  rfl

/-- Sites with a larger total are not drawn in proportion to their weights, and children are not drawn
by the remainder of the total alone. -/
theorem draws_not_in_proportion :
    ¬SitesRight 4294967296 ∧
      ¬∃ child : Nat → Nat, ∀ rand, drawWeightedChild knownHash rand [2, 1] =
        child (childWord knownHash rand % 3) := by
  constructor
  · rintro ⟨-, -, hcount⟩
    have hone := hcount 1 (by decide)
    rw [Finset.filter_false_of_mem] at hone
    · cases hone
    · intro x _
      rw [residSite64_overflow]
      exact Nat.zero_ne_one
  · rintro ⟨child, hchild⟩
    have hword2 : childWord knownHash (randOf 2) = 12663620299762383185 := by
      rw [childWord, childHash_known]
      rfl
    have hword14 : childWord knownHash (randOf 14) = 6210699046200458300 := by
      rw [childWord, childHash_known]
      rfl
    have huniform2 : drawsUniformly knownHash (randOf 2) := by
      rw [drawsUniformly, childHash_known]
      rfl
    have huniform14 : drawsUniformly knownHash (randOf 14) := by
      rw [drawsUniformly, childHash_known]
      rfl
    have hchild2 := hchild (randOf 2)
    have hchild14 := hchild (randOf 14)
    rw [drawWeightedChild, if_pos huniform2, hword2] at hchild2
    rw [drawWeightedChild, if_pos huniform14, hword14] at hchild14
    exact absurd (hchild2.trans hchild14.symm) (by decide)

end KeryxMiner.Inference
