import TwinLisp.Token.Scan

/-! The tokens of a source.

* `Token.scanFrom_token`, `Token.scanFrom_eof`, `Token.scanFrom_error`: one step of the scan.
* `Token.scanFrom_ends`, `Token.tokens_ends`: the last token is the end of the source, and no other
  is. -/

namespace TwinLisp.Token

theorem scanFrom_token {c d : Cursor} {t : Token} (hn : next c = .ok (t, d))
    (he : t.kind.isEof = false) (acc : List Token) : scanFrom c acc = scanFrom d (t :: acc) := by
  rw [scanFrom]
  split
  · rename_i h
    rw [hn] at h
    cases h
  · rename_i h
    rw [hn] at h
    cases h
    rw [dif_neg (by simp [he])]

theorem scanFrom_eof {c d : Cursor} {t : Token} (hn : next c = .ok (t, d))
    (he : t.kind.isEof = true) (acc : List Token) : scanFrom c acc = ((t :: acc).reverse, none) := by
  rw [scanFrom]
  split
  · rename_i h
    rw [hn] at h
    cases h
  · rename_i h
    rw [hn] at h
    cases h
    rw [dif_pos he]

theorem scanFrom_error {c : Cursor} {e : LexError} (hn : next c = .error e) (acc : List Token) :
    scanFrom c acc = (acc.reverse, some e) := by
  rw [scanFrom]
  split
  · rename_i h
    rw [hn] at h
    cases h
    rfl
  · rename_i h
    rw [hn] at h
    cases h

theorem scanFrom_congr {c d : Cursor} (h : next c = next d) (acc : List Token) :
    scanFrom c acc = scanFrom d acc := by
  cases hn : next d with
  | error e => rw [scanFrom_error (h.trans hn), scanFrom_error hn]
  | ok p =>
    cases he : p.1.kind.isEof with
    | true => rw [scanFrom_eof (h.trans hn) he, scanFrom_eof hn he]
    | false => rw [scanFrom_token (h.trans hn) he, scanFrom_token hn he]

theorem scanFrom_ends {c : Cursor} {acc ts : List Token} (h : scanFrom c acc = (ts, none)) :
    ∃ us fin, ts = acc.reverse ++ us ++ [fin] ∧ fin.kind.isEof = true ∧
      ∀ t ∈ us, t.kind.isEof = false := by
  fun_induction scanFrom c acc with
  | case1 => cases h
  | case2 c acc t d hn he =>
    cases h
    exact ⟨[], t, by simp, he, nofun⟩
  | case3 c acc t d hn he _ ih =>
    obtain ⟨us, fin, rfl, hfin, hus⟩ := ih h
    refine ⟨t :: us, fin, by simp, hfin, fun u hu => ?_⟩
    rcases List.mem_cons.mp hu with rfl | hu
    · exact Bool.not_eq_true _ ▸ he
    · exact hus u hu

/-- The end of a source stands behind its tokens, and nowhere else. -/
theorem tokens_ends {source : String} {ts : List Token} (h : tokens source = .ok ts) :
    ∃ us fin, ts = us ++ [fin] ∧ fin.kind.isEof = true ∧ ∀ t ∈ us, t.kind.isEof = false := by
  unfold tokens scan at h
  split at h
  · rename_i hs
    cases h
    obtain ⟨us, fin, hts, hfin, hus⟩ := scanFrom_ends hs
    exact ⟨us, fin, hts, hfin, hus⟩
  · cases h

end TwinLisp.Token
