import Mathlib
import Cassetta.Guarantee.TwoPhase
import Cassetta.Surface.Download

/-!
# The URLs that are handed out

A download URL is taken apart again into the bundle path and the name it was built from. An
upload URL is decoded twice, once by the server and once by the handler, and goes through a route
in between, so that it leads back to the path of its token where that path is one line with no
escape in it.
-/

namespace Cassetta

open Prog

/-! ## Download URLs -/

/-- What follows the scheme of a URL. -/
def afterScheme : List Char → List Char
  | ':' :: '/' :: '/' :: rest => rest
  | _ :: rest => afterScheme rest
  | [] => []

/-- The raw path of a request for a URL: from the end of its authority to its query or
fragment. -/
def rawPath (url : String) : String :=
  String.ofList (((afterScheme url.toList).dropWhile fun c => c ≠ '/' ∧ c ≠ '?' ∧ c ≠ '#').takeWhile
    fun c => c ≠ '?' ∧ c ≠ '#')

/-- A base URL that is a scheme and an authority, trailing slashes aside. -/
def Pathless (base : String) : Prop :=
  ∃ scheme authority : String, rstripSlash base = scheme ++ "://" ++ authority ∧
    (∀ c ∈ scheme.toList, c ≠ ':') ∧ ∀ c ∈ authority.toList, c ≠ '/' ∧ c ≠ '?' ∧ c ≠ '#'

private theorem afterScheme_append (scheme rest : List Char) (h : ∀ c ∈ scheme, c ≠ ':') :
    afterScheme (scheme ++ ':' :: '/' :: '/' :: rest) = rest := by
  induction scheme with
  | nil => rfl
  | cons c scheme ih =>
    rw [List.forall_mem_cons] at h
    rw [List.cons_append, afterScheme, ih h.2]
    rintro tail hc
    exact absurd hc h.1

/-- What is appended to a base without a path is the raw path, up to a query or fragment. -/
theorem rawPath_append {base tail : String} (hbase : Pathless base)
    (htail : ∀ c ∈ tail.toList, c ≠ '?' ∧ c ≠ '#') :
    rawPath (rstripSlash base ++ "/" ++ tail) = "/" ++ tail := by
  obtain ⟨scheme, authority, heq, hscheme, hauthority⟩ := hbase
  have hchars : (rstripSlash base ++ "/" ++ tail).toList =
      scheme.toList ++ ':' :: '/' :: '/' :: (authority.toList ++ '/' :: tail.toList) := by
    rw [heq]
    simp
  rw [rawPath, hchars, afterScheme_append _ _ hscheme,
    List.dropWhile_append_of_pos (by simpa using hauthority), List.dropWhile_cons_of_neg (by simp),
    ← String.toList_inj, String.toList_ofList]
  have hall : ∀ c ∈ '/' :: tail.toList, decide (c ≠ '?' ∧ c ≠ '#') = true := by
    rw [List.forall_mem_cons]
    exact ⟨by decide, by simpa using htail⟩
  rw [List.takeWhile_eq_self_iff.mpr hall, String.toList_append]
  rfl

/-- A path of the route with two quoted parts has no query. -/
theorem takeWhile_download (bundlePath name : String) :
    ("/download/" ++ Percent.quote bundlePath ++ "/" ++ Percent.quote name).toList.takeWhile
      (· ≠ '?') =
      ("/download/" ++ Percent.quote bundlePath ++ "/" ++ Percent.quote name).toList := by
  refine List.takeWhile_eq_self_iff.mpr fun c hc => ?_
  simp only [String.toList_append, List.mem_append] at hc
  rcases hc with ((hc | hc) | hc) | hc
  · exact (by simp : ∀ c ∈ "/download/".toList, decide (c ≠ '?') = true) c hc
  · simpa using (Percent.mem_quote hc).2.2.1
  · exact (by simp : ∀ c ∈ "/".toList, decide (c ≠ '?') = true) c hc
  · simpa using (Percent.mem_quote hc).2.2.1

/-- The route matches such a path if the bundle path and the name can stand in one. -/
theorem routeParam_download (bundlePath name : String) :
    routeParam "/download/"
      ("/download/" ++ Percent.quote bundlePath ++ "/" ++ Percent.quote name) =
      pathParam (bundlePath ++ "/" ++ name) := by
  have hcodes := (((Percent.codes_plain (s := "/download/") (by simp)).append
    (Percent.codes_quote bundlePath)).append (Percent.codes_plain (s := "/") (by simp))).append
    (Percent.codes_quote name)
  simp only [String.append_assoc] at hcodes ⊢
  exact routeParam_of_codes hcodes

/-- A path of the route with two quoted parts is taken apart at the slash between them. -/
theorem splitRawPath_quote (bundlePath name : String) :
    Download.splitRawPath ("/download/" ++ Percent.quote bundlePath ++ "/" ++ Percent.quote name) =
      .ok (bundlePath, name) := by
  have hslash : ∀ s : String, ∀ c ∈ (Percent.quote s).toList, decide (c ≠ '/') = true :=
    fun s c hc => by simpa using (Percent.mem_quote hc).2.1
  have hquery := takeWhile_download bundlePath name
  generalize hbundle : Percent.quote bundlePath = bundle
  generalize hlast : Percent.quote name = last
  have hchars : ("/download/" ++ bundle ++ "/" ++ last).toList =
      "/download/".toList ++ (bundle.toList ++ '/' :: last.toList) := by simp
  have hwhole : ("/download/" ++ bundle ++ "/" ++ last).toList.takeWhile (· ≠ '?') =
      "/download/".toList ++ (bundle.toList ++ '/' :: last.toList) := by
    rw [← hchars, ← hbundle, ← hlast]
    exact hquery
  have hname : ((bundle.toList ++ '/' :: last.toList).reverse.takeWhile (· ≠ '/')).reverse =
      last.toList := by
    rw [List.reverse_append, List.reverse_cons, List.append_assoc, List.singleton_append,
      List.takeWhile_append_of_pos fun c hc => hslash name c (hlast ▸ List.mem_reverse.mp hc),
      List.takeWhile_cons_of_neg (by simp), List.append_nil, List.reverse_reverse]
  have htake : (bundle.toList ++ '/' :: last.toList).take
      ((bundle.toList ++ '/' :: last.toList).length - last.toList.length - 1) = bundle.toList := by
    rw [List.length_append, List.length_cons,
      show bundle.toList.length + (last.toList.length + 1) - last.toList.length - 1 =
        bundle.toList.length by omega, List.take_left]
  have hprefix : "/download/".toList.isPrefixOf
      ("/download/".toList ++ (bundle.toList ++ '/' :: last.toList)) = true :=
    List.isPrefixOf_iff_prefix.mpr (List.prefix_append _ _)
  have hmem : '/' ∈ bundle.toList ++ '/' :: last.toList := by simp
  simp only [Download.splitRawPath, hwhole, hprefix, not_true_eq_false, if_false, List.drop_left,
    hmem, hname, htake, String.ofList_toList]
  rw [← hbundle, ← hlast, Percent.unquote_quote, Percent.unquote_quote]

/-- The raw path of a download URL is what follows the base, quoted. -/
theorem rawPath_buildDownloadUrl {cfg : Config} (hbase : Pathless cfg.publicBaseUrl)
    (bundlePath name : String) :
    rawPath (buildDownloadUrl cfg bundlePath name) =
      "/download/" ++ Percent.quote bundlePath ++ "/" ++ Percent.quote name := by
  have htail : buildDownloadUrl cfg bundlePath name = rstripSlash cfg.publicBaseUrl ++ "/" ++
      ("download/" ++ Percent.quote bundlePath ++ "/" ++ Percent.quote name) := by
    simp only [buildDownloadUrl, ← String.toList_inj, String.toList_append, List.append_assoc]
    rfl
  have hplain : ∀ c ∈ ("download/" ++ Percent.quote bundlePath ++ "/" ++
      Percent.quote name).toList, c ≠ '?' ∧ c ≠ '#' := by
    intro c hc
    simp only [String.toList_append, List.mem_append] at hc
    rcases hc with ((hc | hc) | hc) | hc
    · exact (by simp : ∀ c ∈ "download/".toList, c ≠ '?' ∧ c ≠ '#') c hc
    · exact (Percent.mem_quote hc).2.2
    · exact (by simp : ∀ c ∈ "/".toList, c ≠ '?' ∧ c ≠ '#') c hc
    · exact (Percent.mem_quote hc).2.2
  rw [htail, rawPath_append hbase hplain]
  simp only [← String.toList_inj, String.toList_append]
  rfl

/-- The raw path of a download URL is read back as the pair it was built from. -/
theorem splitRawPath_buildDownloadUrl {cfg : Config} (hbase : Pathless cfg.publicBaseUrl) :
    (∀ bundlePath name,
      Download.splitRawPath (rawPath (buildDownloadUrl cfg bundlePath name)) =
        .ok (bundlePath, name)) ∧
    ∀ bundlePath name bundlePath' name',
      buildDownloadUrl cfg bundlePath name = buildDownloadUrl cfg bundlePath' name' →
        bundlePath = bundlePath' ∧ name = name' := by
  have hsplit : ∀ bundlePath name,
      Download.splitRawPath (rawPath (buildDownloadUrl cfg bundlePath name)) =
        .ok (bundlePath, name) := by
    intro bundlePath name
    rw [rawPath_buildDownloadUrl hbase]
    exact splitRawPath_quote bundlePath name
  refine ⟨hsplit, fun bundlePath name bundlePath' name' heq => ?_⟩
  have hpair := hsplit bundlePath name
  rw [heq, hsplit bundlePath' name'] at hpair
  cases hpair
  exact ⟨rfl, rfl⟩

/-- On the local server. -/
theorem splitRawPath_local :
    (∀ bundlePath name, Download.splitRawPath
      (rawPath (buildDownloadUrl srvConfig bundlePath name)) = .ok (bundlePath, name)) ∧
    ∀ bundlePath name bundlePath' name',
      buildDownloadUrl srvConfig bundlePath name = buildDownloadUrl srvConfig bundlePath' name' →
        bundlePath = bundlePath' ∧ name = name' :=
  splitRawPath_buildDownloadUrl ⟨"http", "localhost:16001", by decide, by simp, by simp⟩

/-! ## Upload URLs -/

/-- The parameter of the route of an upload, for the path of a URL below the public base. -/
def uploadParam (cfg : Config) (url : String) : Option String :=
  routeParam "/upload/" (removePrefix url (rstripSlash cfg.publicBaseUrl))

/-- An upload to the URL of a session, under its token, reaches its route and passes the comparison
of the paths there. -/
def SendInitResult.UrlMatches (cfg : Config) (r : SendInitResult) : Prop :=
  ∃ url claims key param, r.uploadUrl = some url ∧ r.token = .signed claims key ∧
    uploadParam cfg url = some param ∧ Percent.unquote param = claims.bundlePath.getD ""

/-- The server decodes what was quoted, and the route looks at it. -/
theorem uploadParam_quote (cfg : Config) (bundlePath : String) :
    uploadParam cfg (rstripSlash cfg.publicBaseUrl ++ "/upload/" ++ Percent.quote bundlePath) =
      pathParam bundlePath := by
  rw [uploadParam, String.append_assoc, removePrefix_append, routeParam_append_quote (by simp)]

private theorem newline_inboxPath (recipient path : String) :
    '\n' ∉ (inboxPath recipient path).toList ↔
      '\n' ∉ recipient.toList ∧ '\n' ∉ path.toList := by
  simp [inboxPath]

private theorem hasEscape_inboxPath (recipient path : String) :
    Percent.hasEscape (inboxPath recipient path).toList = false ↔
      Percent.hasEscape recipient.toList = false ∧ Percent.hasEscape path.toList = false := by
  have hchars : (inboxPath recipient path).toList =
      ("inbox".toList ++ '/' :: recipient.toList) ++ '/' :: path.toList := by
    simp [inboxPath]
  have hdigit : Percent.hexValue '/' = none := by decide
  have hinbox : Percent.hasEscape "inbox".toList = false := by decide
  rw [hchars, Percent.hasEscape_append_cons _ _ hdigit (by decide),
    Percent.hasEscape_append_cons _ _ hdigit (by decide), hinbox, Bool.false_or,
    Bool.or_eq_false_iff]

variable {cfg : Config} {env : Environment} {s s' : Server} {to_ path recipient : String}
  {raw : SendManifest} {identity : Identity} {label : Option String} {allowInline : Bool}
  {r : SendInitResult}

/-- The URL of a batch session is that of the path its token is bound to. -/
theorem ensures_uploadUrl
    (hto : (runE (exec cfg env) (resolveRecipient to_ label) s).1 = .ok recipient) :
    Ensures (exec cfg env) (prepareSendInit cfg to_ path raw identity label allowInline)
      (fun r _ => r.mode = .batch → ∃ claims,
        r.uploadUrl = some (rstripSlash cfg.publicBaseUrl ++ "/upload/" ++
          Percent.quote (inboxPath recipient path)) ∧
        r.token = .signed claims cfg.jwtPrimaryKey ∧
        claims.bundlePath = some (inboxPath recipient path)) s := by
  unfold prepareSendInit
  split
  · trivial
  simp only [Ensures, wpE_bind]
  refine ensures_mono (ensures_validateOr _ _ _) fun _ s₁ hs₁ => ?_
  obtain ⟨rfl, -⟩ := hs₁
  rw [wpE_iff_run]
  refine ⟨wpE_trivial _, ?_⟩
  rcases hrun : runE (exec cfg env) (resolveRecipient to_ label) s₁ with ⟨res, s₂⟩
  rw [hrun] at hto
  dsimp only at hto
  subst hto
  refine ensures_mono (ensures_enforce _ _ _ _) fun _ s₃ _ => ?_
  split
  · trivial
  simp only [wpE_bind, wpE_newId, wpE_now, true_and, wpE_pure]
  intro hbatch
  rw [hbatch]
  exact ⟨_, rfl, rfl, rfl⟩

/-- The upload URL of a batch session leads to the path of its token exactly where neither the
recipient nor the path has an escape or a newline in it. -/
theorem uploadUrl_matches_iff
    (hto : (runE (exec cfg env) (resolveRecipient to_ label) s).1 = .ok recipient)
    (hinit : runE (exec cfg env) (prepareSendInit cfg to_ path raw identity label allowInline) s =
      (.ok r, s')) (hmode : r.mode = .batch) :
    r.UrlMatches cfg ↔
      (Percent.hasEscape recipient.toList = false ∧ Percent.hasEscape path.toList = false) ∧
        '\n' ∉ recipient.toList ∧ '\n' ∉ path.toList := by
  obtain ⟨claims, hurl, htoken, hpath⟩ := wpE_ok (ensures_uploadUrl hto) hinit hmode
  rw [← hasEscape_inboxPath, ← newline_inboxPath, ← unquote_pathParam_iff]
  constructor
  · rintro ⟨url, claims', key, param, hurl', htoken', hparam, hmatch⟩
    rw [hurl] at hurl'
    rw [htoken] at htoken'
    cases hurl'
    cases htoken'
    rw [uploadParam_quote] at hparam
    rw [hpath] at hmatch
    exact ⟨param, hparam, hmatch⟩
  · rintro ⟨param, hparam, hself⟩
    refine ⟨_, claims, _, param, hurl, htoken, ?_, ?_⟩
    · rwa [uploadParam_quote]
    · rwa [hpath]

/-- The session of a send to `bob` has the URL of its token. -/
theorem uploadUrl_matches_small : (smallSession ["a"]).UrlMatches srvConfig := by
  have hto : (runE (exec srvConfig .core) (resolveRecipient "bob:b" (some "alice:a"))
      srvSystem.server).1 = .ok "bob:b" := by decide +kernel
  have hinit : (smallInit ["a"]).1 = .ok (smallSession ["a"]) := by decide +kernel
  have hrun : smallInit ["a"] = (.ok (smallSession ["a"]), (smallInit ["a"]).2) :=
    Prod.ext hinit rfl
  exact Iff.mpr (uploadUrl_matches_iff hto hrun rfl) (by decide)

/-- The session of a send to the bare name `%41`. -/
def escapedSession : SendInitResult where
  bundleId := 0
  mode := .batch
  token := .signed
    { uploadClaims "inbox/%41/p" 0 "alice:a" "%41" .batch
        [⟨"a", 1, "application/octet-stream"⟩] 300 5 with jti := some 1 }
    srvConfig.jwtPrimaryKey
  expiresAt := 305
  uploadUrl := some "http://localhost:16001/upload/inbox%2F%2541%2Fp"

/-- Its URL is decoded once too often. -/
theorem uploadUrl_decoded_twice :
    (runE (exec srvConfig .core) (prepareSendInit srvConfig "%41" "p" (smallManifest ["a"]) alice
      (some "alice:a") false) srvSystem.server).1 = .ok escapedSession ∧
    escapedSession.mode = .batch ∧ ¬escapedSession.UrlMatches srvConfig := by
  refine ⟨by decide +kernel, rfl, ?_⟩
  rintro ⟨url, claims, key, param, hurl, htoken, hparam, hmatch⟩
  cases hurl
  cases htoken
  have hrest := uploadParam_quote srvConfig "inbox/%41/p"
  have hurl : rstripSlash srvConfig.publicBaseUrl ++ "/upload/" ++ Percent.quote "inbox/%41/p" =
      "http://localhost:16001/upload/inbox%2F%2541%2Fp" := by decide +kernel
  rw [hurl, hparam] at hrest
  obtain rfl : param = "inbox/%41/p" := Option.some.inj (hrest.trans (by decide))
  revert hmatch
  decide +kernel

end Cassetta
