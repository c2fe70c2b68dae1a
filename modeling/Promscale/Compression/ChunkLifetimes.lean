import Promscale.Compression.Chunks

/-!
# What becomes of chunks

Chunks are made, compressed, decompressed and dropped, the older ones of a hypertable before the
newer ones. So a chunk that was not the latest of its hypertable when it was listed will not be
the latest for as long as it is there.
-/
namespace Promscale.Compression

open Promscale.Lib

/-- One chunk in two states of the database. -/
def Chunk.Same (c c' : Chunk) : Prop :=
  c.name = c'.name ∧ c.hypertableId = c'.hypertableId ∧ c.rangeEnd = c'.rangeEnd

namespace Storage

/-- A chunk that was not dropped. -/
def Has (s : Storage) (c : Chunk) : Prop := c ∈ s.chunk.rows ∧ c.dropped = false

/-- No chunk of its hypertable ends later. -/
def Latest (s : Storage) (c : Chunk) : Prop :=
  s.Has c ∧ ∀ c', s.Has c' → c'.hypertableId = c.hypertableId → c'.rangeEnd ≤ c.rangeEnd

/-- The chunk of that name, if it is still there, is not the latest of its hypertable. -/
def Superseded (s : Storage) (name : ChunkName) : Prop :=
  name ∈ s.usedNames ∧ ∀ c, s.Has c → c.name = name →
    ∃ c', s.Has c' ∧ c'.hypertableId = c.hypertableId ∧ c.rangeEnd < c'.rangeEnd

/-- What happens to chunks other than being compressed. -/
structure Evolves (s s' : Storage) : Prop where
  names : s.usedNames ⊆ s'.usedNames
  /-- A chunk was there before, and not less compressed, or it has a new name. -/
  had : ∀ c', s'.Has c' →
    (∃ c, s.Has c ∧ c.Same c' ∧ (c'.compressed = true → c.compressed = true)) ∨
      c'.name ∉ s.usedNames ∧ c'.name ∈ s'.usedNames ∧ c'.compressed = false
  /-- When a chunk stays, so do the later ones of its hypertable. -/
  stays : ∀ c d c', s.Has c → s.Has d → d.hypertableId = c.hypertableId →
    c.rangeEnd < d.rangeEnd → s'.Has c' → c.Same c' → ∃ d', s'.Has d' ∧ d.Same d'

structure NamesUsed (s : Storage) : Prop where
  used : ∀ c, s.Has c → c.name ∈ s.usedNames

theorem Has.eq_of_name {s : Storage} {c d : Chunk} (hc : s.Has c) (hd : s.Has d)
    (hname : c.name = d.name) : c = d := by
  obtain ⟨hschema, htable⟩ := ChunkName.mk.inj hname
  exact s.chunk.eq_of_conflict hc.1 hd.1 (by simp [Chunk.constraints, hschema, htable])

namespace Evolves

theorem refl_of {s s' : Storage} (hchunk : s'.chunk = s.chunk)
    (hnames : s'.usedNames = s.usedNames) : Evolves s s' := by
  have hhas : ∀ c, s'.Has c ↔ s.Has c := by
    intro c
    rw [Has, Has, hchunk]
  refine ⟨fun _ hname => hnames ▸ hname, ?_, ?_⟩
  · intro c' hc'
    exact .inl ⟨c', (hhas c').mp hc', ⟨rfl, rfl, rfl⟩, id⟩
  · intro c d c' _ hd _ _ _ _
    exact ⟨d, (hhas d).mpr hd, rfl, rfl, rfl⟩

/-- An update of rows that drops, decompresses or leaves alone. -/
theorem of_map {s s' : Storage} {f : Chunk → Chunk} (hrows : s'.chunk.rows = s.chunk.rows.map f)
    (hnames : s'.usedNames = s.usedNames)
    (hf : ∀ c, c.Same (f c) ∧ ((f c).dropped = false → c.dropped = false) ∧
      ((f c).compressed = true → c.compressed = true))
    (hstays : ∀ c d, s.Has c → s.Has d → d.hypertableId = c.hypertableId →
      c.rangeEnd < d.rangeEnd → (f c).dropped = false → (f d).dropped = false) :
    Evolves s s' := by
  have hhas : ∀ c', s'.Has c' → ∃ c, s.Has c ∧ f c = c' := by
    rintro c' ⟨hmem, hdropped⟩
    rw [hrows] at hmem
    obtain ⟨c, hc, rfl⟩ := List.mem_map.mp hmem
    exact ⟨c, ⟨hc, (hf c).2.1 hdropped⟩, rfl⟩
  refine ⟨fun _ hname => hnames ▸ hname, ?_, ?_⟩
  · intro c' hc'
    obtain ⟨c, hc, rfl⟩ := hhas c' hc'
    exact .inl ⟨c, hc, (hf c).1, (hf c).2.2⟩
  · intro c d c' hc hd hhypertable hlt hc' hsame
    obtain ⟨c₀, hc₀, rfl⟩ := hhas c' hc'
    have heq : c = c₀ := hc.eq_of_name hc₀ (hsame.1.trans (hf c₀).1.1.symm)
    subst heq
    refine ⟨f d, ⟨?_, hstays c d hc hd hhypertable hlt hc'.2⟩, (hf d).1⟩
    rw [hrows]
    exact List.mem_map_of_mem hd.1

/-- The later chunks of a hypertable are the last to be dropped. -/
theorem dropChunks (s : Storage) (hypertableId : Nat) (olderThan : Int) :
    Evolves s (s.dropChunks hypertableId olderThan) := by
  by_cases hkeeps : s.keepsDropped hypertableId = true
  · have hrows : (s.dropChunks hypertableId olderThan).chunk.rows =
        s.chunk.rows.map fun c =>
          if c.hypertableId = hypertableId ∧ c.rangeEnd ≤ olderThan then { c with dropped := true }
          else c := by
      simp only [Storage.dropChunks, hkeeps, if_true]
      rfl
    refine of_map hrows rfl ?_ ?_
    · intro c
      split
      · exact ⟨⟨rfl, rfl, rfl⟩, fun hdropped => absurd hdropped (by simp), id⟩
      · exact ⟨⟨rfl, rfl, rfl⟩, id, id⟩
    · intro c d _ hd hhypertable hlt hc
      split at hc
      · cases hc
      · rename_i hnot
        rw [if_neg (by omega)]
        exact hd.2
  · have hrows : (s.dropChunks hypertableId olderThan).chunk.rows =
        s.chunk.rows.filter fun c =>
          !(c.hypertableId = hypertableId && c.rangeEnd ≤ olderThan : Bool) := by
      simp only [Storage.dropChunks, hkeeps]
      rfl
    have hhas : ∀ c, (s.dropChunks hypertableId olderThan).Has c ↔
        s.Has c ∧ ¬ (c.hypertableId = hypertableId ∧ c.rangeEnd ≤ olderThan) := by
      intro c
      rw [Has, Has, hrows]
      simp only [List.mem_filter, Bool.not_eq_true', Bool.and_eq_false_iff,
        decide_eq_false_iff_not]
      tauto
    refine ⟨fun _ hname => hname, ?_, ?_⟩
    · intro c' hc'
      exact .inl ⟨c', ((hhas c').mp hc').1, ⟨rfl, rfl, rfl⟩, id⟩
    · rintro c d c' hc hd hhypertable hlt hc' ⟨-, hsameHypertable, hsameEnd⟩
      have hnot := ((hhas c').mp hc').2
      exact ⟨d, (hhas d).mpr ⟨hd, by omega⟩, rfl, rfl, rfl⟩

theorem decompressChunkForMetric (s : Storage) (metricTable : String)
    (chunkName : ChunkName) : Evolves s (s.decompressChunkForMetric metricTable chunkName) := by
  unfold Storage.decompressChunkForMetric
  split
  · exact refl_of rfl rfl
  · rename_i h hfind
    refine of_map (f := fun c =>
      if c.hypertableId = h.id ∧ c.name = chunkName ∧ c.compressed = true then c.decompress else c)
      rfl rfl ?_ ?_
    · intro c
      split
      · exact ⟨⟨rfl, rfl, rfl⟩, id, fun hcompressed => by simp at hcompressed⟩
      · exact ⟨⟨rfl, rfl, rfl⟩, id, id⟩
    · intro c d _ hd _ _ _
      split
      · exact hd.2
      · exact hd.2

theorem createChunk (s : Storage) (id hypertableId : Nat) (name : ChunkName)
    (rangeEnd : Int) : Evolves s (s.createChunk id hypertableId name rangeEnd) := by
  unfold Storage.createChunk
  split
  · exact refl_of rfl rfl
  · rename_i hfresh
    split
    · exact refl_of rfl rfl
    · rename_i chunk hinsert
      have hmem := Table.mem_insert hinsert
      refine ⟨List.subset_cons_self _ _, ?_, ?_⟩
      · rintro c' ⟨hc', hdropped⟩
        rcases (hmem c').mp hc' with hold | rfl
        · exact .inl ⟨c', ⟨hold, hdropped⟩, ⟨rfl, rfl, rfl⟩, fun hc => hc⟩
        · exact .inr ⟨hfresh, List.mem_cons_self, by simp [Chunk.compressed]⟩
      · intro c d c' _ hd _ _ _ _
        exact ⟨d, ⟨(hmem d).mpr (.inl hd.1), hd.2⟩, rfl, rfl, rfl⟩

variable {s s' : Storage}

theorem namesUsed (h : Evolves s s') (hused : s.NamesUsed) : s'.NamesUsed where
  used c' hc' := by
    rcases h.had c' hc' with ⟨c, hc, hsame, _⟩ | ⟨_, hname, _⟩
    · rw [← hsame.1]
      exact h.names (hused.used c hc)
    · exact hname

theorem superseded (h : Evolves s s') {name : ChunkName} (hsuperseded : s.Superseded name) :
    s'.Superseded name := by
  refine ⟨h.names hsuperseded.1, ?_⟩
  intro c' hc' hname
  rcases h.had c' hc' with ⟨c, hc, hsame, _⟩ | ⟨hnew, _, _⟩
  · obtain ⟨d, hd, hhypertable, hlt⟩ := hsuperseded.2 c hc (hsame.1.trans hname)
    obtain ⟨d', hd', hsame'⟩ := h.stays c d c' hc hd hhypertable hlt hc' hsame
    obtain ⟨-, hc₁, hc₂⟩ := hsame
    obtain ⟨-, hd₁, hd₂⟩ := hsame'
    exact ⟨d', hd', by omega, by omega⟩
  · rw [hname] at hnew
    exact absurd hsuperseded.1 hnew

/-- The latest chunk was the latest before, or is new. -/
theorem latest_uncompressed (h : Evolves s s')
    (hlatest : ∀ c, s.Latest c → c.compressed = false) {c' : Chunk} (hc' : s'.Latest c') :
    c'.compressed = false := by
  rcases h.had c' hc'.1 with ⟨c, hc, hsame, hcompressed⟩ | ⟨_, _, hnew⟩
  · have hc₀ : s.Latest c := by
      refine ⟨hc, ?_⟩
      intro d hd hhypertable
      by_contra hlt
      obtain ⟨d', hd', hsame'⟩ := h.stays c d c' hc hd hhypertable (by omega) hc'.1 hsame
      obtain ⟨-, hc₁, hc₂⟩ := hsame
      obtain ⟨-, hd₁, hd₂⟩ := hsame'
      have hle := hc'.2 d' hd' (by omega)
      omega
    have hfalse := hlatest c hc₀
    cases hvalue : c'.compressed with
    | false => rfl
    | true =>
      rw [hcompressed hvalue] at hfalse
      cases hfalse
  · exact hnew

end Evolves

/-! ## Compressing chunks -/

theorem has_commitCompressed {s : Storage} {names : List ChunkName} {c' : Chunk} :
    (s.commitCompressed names).Has c' ↔
      ∃ c, s.Has c ∧ (if c.name ∈ names then c.compress else c) = c' := by
  have hrows : (s.commitCompressed names).chunk.rows =
      s.chunk.rows.map fun c => if c.name ∈ names then c.compress else c := rfl
  rw [Has, hrows, List.mem_map]
  constructor
  · rintro ⟨⟨c, hc, rfl⟩, hdropped⟩
    refine ⟨c, ⟨hc, ?_⟩, rfl⟩
    split at hdropped
    · exact hdropped
    · exact hdropped
  · rintro ⟨c, ⟨hc, hdropped⟩, rfl⟩
    refine ⟨⟨c, hc, rfl⟩, ?_⟩
    split
    · exact hdropped
    · exact hdropped

theorem same_committed (c : Chunk) (names : List ChunkName) :
    c.Same (if c.name ∈ names then c.compress else c) := by
  split <;> exact ⟨rfl, rfl, rfl⟩

variable {s : Storage} {names : List ChunkName}

theorem NamesUsed.commit (h : s.NamesUsed) : (s.commitCompressed names).NamesUsed where
  used c' hc' := by
    obtain ⟨c, hc, rfl⟩ := has_commitCompressed.mp hc'
    rw [← (same_committed c names).1]
    exact h.used c hc

theorem Superseded.commit {name : ChunkName} (h : s.Superseded name) :
    (s.commitCompressed names).Superseded name := by
  refine ⟨h.1, ?_⟩
  intro c' hc' hname
  obtain ⟨c, hc, rfl⟩ := has_commitCompressed.mp hc'
  obtain ⟨hsame, hhypertable, hend⟩ := same_committed c names
  obtain ⟨d, hd, hdHypertable, hlt⟩ := h.2 c hc (hsame.trans hname)
  obtain ⟨-, hd₁, hd₂⟩ := same_committed d names
  exact ⟨_, has_commitCompressed.mpr ⟨d, hd, rfl⟩, by omega, by omega⟩

/-- Chunks that are superseded are none of the latest. -/
theorem latest_commitCompressed (hlatest : ∀ c, s.Latest c → c.compressed = false)
    (hnames : ∀ name ∈ names, s.Superseded name) {c' : Chunk}
    (hc' : (s.commitCompressed names).Latest c') : c'.compressed = false := by
  obtain ⟨c, hc, hcompress⟩ := has_commitCompressed.mp hc'.1
  have hle : ∀ d, s.Has d → d.hypertableId = c.hypertableId → d.rangeEnd ≤ c.rangeEnd := by
    intro d hd hhypertable
    obtain ⟨-, hd₁, hd₂⟩ := same_committed d names
    obtain ⟨-, hc₁, hc₂⟩ := same_committed c names
    rw [hcompress] at hc₁ hc₂
    have hle := hc'.2 _ (has_commitCompressed.mpr ⟨d, hd, rfl⟩) (by omega)
    omega
  have hnot : c.name ∉ names := by
    intro hname
    obtain ⟨d, hd, hhypertable, hlt⟩ := (hnames _ hname).2 c hc rfl
    exact absurd (hle d hd hhypertable) (by omega)
  rw [if_neg hnot] at hcompress
  rw [← hcompress]
  exact hlatest c ⟨hc, hle⟩

/-- What is listed is superseded. -/
theorem superseded_of_listed (hused : s.NamesUsed) {hypertableId : Nat} {olderThan : Int}
    {x : ChunkToCompress} (hx : x ∈ s.chunksToCompress hypertableId olderThan) :
    s.Superseded x.name := by
  obtain ⟨c, hc, hname⟩ := mem_names_chunksToCompress.mp (List.mem_map_of_mem hx)
  obtain ⟨hmem, hhypertable, hdropped, _⟩ := mem_uncompressed.mp hc.uncompressed
  refine ⟨hname ▸ hused.used c ⟨hmem, hdropped⟩, ?_⟩
  intro c₂ hc₂ hname₂
  have heq : c₂ = c := hc₂.eq_of_name ⟨hmem, hdropped⟩ (hname₂.trans hname.symm)
  subst heq
  obtain ⟨d, hd, hlt⟩ := hc.notLatest
  obtain ⟨hdmem, hdHypertable, hdDropped, _⟩ := mem_uncompressed.mp hd
  exact ⟨d, ⟨hdmem, hdDropped⟩, hdHypertable.trans hhypertable.symm, hlt⟩

/-! ## Decompressing chunks -/

@[simp] theorem findHypertable_decompressChunkForMetric (s : Storage) (metricTable : String)
    (chunkName : ChunkName) (schemaName tableName : String) :
    (s.decompressChunkForMetric metricTable chunkName).findHypertable schemaName tableName =
      s.findHypertable schemaName tableName := by
  unfold decompressChunkForMetric
  split <;> rfl

theorem mem_decompressChunkForMetric {s : Storage} {metricTable : String} {h : Hypertable}
    (hfind : s.findHypertable Catalog.promData metricTable = some h)
    {chunkName : ChunkName} {c' : Chunk}
    (hc' : c' ∈ (s.decompressChunkForMetric metricTable chunkName).chunk.rows)
    (hhypertable : c'.hypertableId = h.id) (hcompressed : c'.compressed = true) :
    c' ∈ s.chunk.rows ∧ c'.name ≠ chunkName := by
  have hrows : (s.decompressChunkForMetric metricTable chunkName).chunk.rows =
      s.chunk.rows.map fun c =>
        if c.hypertableId = h.id ∧ c.name = chunkName ∧ c.compressed = true then c.decompress
        else c := by
    unfold decompressChunkForMetric
    rw [hfind]
    rfl
  rw [hrows] at hc'
  obtain ⟨c, hc, rfl⟩ := List.mem_map.mp hc'
  split at hcompressed
  · simp at hcompressed
  · rename_i hnot
    rw [if_neg hnot] at hhypertable ⊢
    exact ⟨hc, fun hname => hnot ⟨hhypertable, hname, hcompressed⟩⟩

theorem mem_decompressed {s : Storage} {metricTable : String} {h : Hypertable}
    (hfind : s.findHypertable Catalog.promData metricTable = some h) {chunks : List Chunk}
    {c' : Chunk} (hc' : c' ∈ (chunks.foldl
      (fun s c => s.decompressChunkForMetric metricTable c.name) s).chunk.rows)
    (hhypertable : c'.hypertableId = h.id) (hcompressed : c'.compressed = true) :
    c' ∈ s.chunk.rows ∧ ∀ c ∈ chunks, c'.name ≠ c.name := by
  induction chunks generalizing s with
  | nil => exact ⟨hc', by simp⟩
  | cons c chunks ih =>
    have hfind' : (s.decompressChunkForMetric metricTable c.name).findHypertable
        Catalog.promData metricTable = some h := by
      rw [findHypertable_decompressChunkForMetric, hfind]
    obtain ⟨hmem, hrest⟩ := ih hfind' hc'
    obtain ⟨hold, hne⟩ := mem_decompressChunkForMetric hfind hmem hhypertable hcompressed
    refine ⟨hold, ?_⟩
    intro d hd
    rcases List.mem_cons.mp hd with rfl | hd
    · exact hne
    · exact hrest d hd

/-- No chunk of the metric with rows at or after the time is left compressed. -/
theorem doDecompressChunksAfter_uncompressed {s : Storage} {metricTable : String} {h : Hypertable}
    (hfind : s.findHypertable Catalog.promData metricTable = some h) {minTime : Int} {c : Chunk}
    (hc : c ∈ (s.doDecompressChunksAfter metricTable minTime).chunk.rows)
    (hhypertable : c.hypertableId = h.id) (hend : minTime < c.rangeEnd) :
    c.compressed = false := by
  cases hcompressed : c.compressed with
  | false => rfl
  | true =>
    obtain ⟨hold, hnames⟩ := mem_decompressed hfind hc hhypertable hcompressed
    have hlisted : c ∈ s.compressedAfter metricTable minTime := by
      unfold compressedAfter
      rw [hfind]
      refine (List.perm_insertionSort _ _).mem_iff.mpr (List.mem_filter.mpr ⟨hold, ?_⟩)
      simp [hhypertable, hend, hcompressed]
    exact absurd rfl (hnames c hlisted)

/-- Nothing but the rows of chunks is changed. -/
theorem decompressed_keeps (s : Storage) (metricTable : String) (chunks : List Chunk)
    (hused : s.NamesUsed) :
    (∃ chunk, chunks.foldl (fun s c => s.decompressChunkForMetric metricTable c.name) s =
      { s with chunk }) ∧
    (chunks.foldl (fun s c => s.decompressChunkForMetric metricTable c.name) s).NamesUsed := by
  induction chunks generalizing s with
  | nil => exact ⟨⟨s.chunk, rfl⟩, hused⟩
  | cons c chunks ih =>
    obtain ⟨⟨chunk, hrest⟩, hused'⟩ :=
      ih _ ((Evolves.decompressChunkForMetric s metricTable c.name).namesUsed hused)
    refine ⟨⟨chunk, ?_⟩, hused'⟩
    rw [List.foldl_cons, hrest]
    unfold decompressChunkForMetric
    split <;> rfl

end Storage

end Promscale.Compression
