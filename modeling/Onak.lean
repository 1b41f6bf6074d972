import Onak.Proofs.MergeLossProofs
import Onak.Proofs.Db4Proofs
import Onak.Proofs.KeydProofs
import Onak.Proofs.MergeQuietProofs
import Onak.Proofs.MergeAlgebraProofs
import Onak.Proofs.CodecProofs
import Onak.Proofs.ParseKeysProofs
import Onak.Armor
import Onak.Lib.Sextet
import Onak.Proofs.ArmorProofs
import Onak.CleanKey
import Onak.Upload
import Onak.Proofs.CleanKeyProofs
import Onak.Proofs.UploadProofs
import Onak.Proofs.CapProofs
import Onak.Proofs.WordListProofs
import Onak.Db4Tables
import Onak.Proofs.Db4TablesProofs
import Onak.Proofs.Db4IndexProofs
import Onak.Db4Deadlock
import Onak.Proofs.Db4DeadlockProofs
import Onak.Db4Fetch
import Onak.Proofs.Db4FetchProofs
import Onak.Proofs.StackedProofs
import Onak.Fs
import Onak.Proofs.FsProofs
import Onak.Proofs.FsTextProofs
import Onak.KeydSocket
import Onak.Proofs.KeydSocketProofs
import Onak.Lib.PrefixCode
import Onak.Proofs.SksHashProofs
import Onak.Marshal
import Onak.Proofs.MarshalProofs
import Onak.Framing
import Onak.Proofs.FramingProofs
import Onak.Proofs.ReadStreamProofs
import Onak.Proofs.TruncatedArmorProofs
import Onak.Keyring
import Onak.Proofs.KeyringProofs
import Onak.Poll
import Onak.Proofs.PollProofs
import Onak.Lib.Print
import Onak.KeyIndex
import Onak.Lib.Cursor
import Onak.Template
import Onak.TemplateSpec
import Onak.Proofs.TemplateProofs
import Onak.Proofs.TemplateMarkupProofs
import Onak.Proofs.KeyIndexProofs
import Onak.Lib.Lines
import Onak.Config
import Onak.Proofs.TemplateRenderProofs
import Onak.Proofs.ConfigProofs
import Onak.Proofs.ConfigRoundTripProofs
import Onak.Lib.Places
import Onak.Proofs.CapPacketProofs
import Onak.Proofs.ArmorPreambleProofs
import Onak.Lib.Passes
import Onak.Lib.Leaders
import Onak.Proofs.CleanPassesProofs
import Onak.Proofs.OccurrenceProofs
import Onak.Proofs.CleanRevocationProofs
import Onak.Proofs.CleanCapsProofs
import Onak.Proofs.CleanCountProofs
import Onak.Proofs.DedupeProofs
import Onak.Proofs.UpdateReportProofs
import Onak.Lib.CollapseIn
import Onak.MergeReads
import Onak.Proofs.SigReadsProofs
import Onak.Proofs.MergeReadsProofs
import Onak.Proofs.MergeRunsProofs
import Onak.Proofs.MergeOrderProofs
import Onak.UpdateReads
import Onak.Proofs.UpdateReadsProofs
import Onak.CleanWalk
import Onak.Proofs.CleanVerifyProofs
import Onak.Proofs.DedupPacketProofs
import Onak.Lib.Linked
import Onak.Tails
import Onak.Proofs.TailProofs
import Onak.Proofs.RevokedFlagProofs
import Onak.Proofs.SubpacketCodecProofs
import Onak.Lib.Reading
import Onak.Proofs.ReadSafetyProofs
import Onak.Proofs.SigCheckProofs
import Onak.KeyMaterial
import Onak.Proofs.SighashProofs
import Onak.Proofs.KeyMaterialProofs
import Onak.KeyListing
import Onak.Proofs.HtmlEscapeProofs
import Onak.Proofs.KeyListingProofs
import Onak.KeyArray
import Onak.Proofs.KeyArrayProofs
import Onak.Stats
import Onak.Lib.Bfs
import Onak.Proofs.HashProofs
import Onak.Proofs.StatsProofs
import Onak.Proofs.DegreeProofs
import Onak.Proofs.PathProofs
import Onak.Proofs.TrustPathProofs
import Onak.TemplateTrace
import Onak.Proofs.TemplateNestProofs
import Onak.Sha1x
import Onak.Proofs.Sha1xProofs
import Onak.WordScan
import Onak.Proofs.WordScanProofs
import Onak.Proofs.ConfigLinesProofs
import Onak.AgedKeys
import Onak.Proofs.AgedKeysProofs
import Onak.Lib.Loops
import Onak.KeyringScan
import Onak.Proofs.KeyringScanProofs
import Onak.KeydReceive
import Onak.Proofs.KeydReceiveProofs
import Onak.Lib.Cells
import Onak.SplitKeys
import Onak.Proofs.SplitKeysProofs
import Onak.Lib.KeyedSort
import Onak.Wotsap
import Onak.Proofs.RelinkProofs
import Onak.Proofs.WotsapProofs
import Onak.Url
import Onak.Proofs.UrlProofs
import Onak.Proofs.EddsaProofs
import Onak.Lib.Wp
import Onak.Db4Session
import Onak.Proofs.Db4SessionProofs
import Onak.Lib.BlockHash
import Onak.Sha1
import Onak.HashSpec
import Onak.Md5
import Onak.Proofs.Sha1Proofs
import Onak.Proofs.Sha1xCtxProofs
import Onak.Proofs.Md5Proofs
import Onak.Cgi
import Onak.Proofs.CgiProofs
import Onak.Proofs.DearmorProofs
import Onak.CgiPrograms
import Onak.Hkp
import Onak.Proofs.CleanOriginProofs
import Onak.Proofs.HkpProofs
import Onak.Proofs.HkpFetchProofs
import Onak.Lib.Gossip
import Onak.SyncMail
import Onak.SyncNetwork
import Onak.Proofs.SyncMailProofs
import Onak.Proofs.SyncNetworkProofs
import Onak.Proofs.MailConfigProofs
