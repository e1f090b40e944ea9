import ReOpenLDAP.BackMdb.IdlHistory
import ReOpenLDAP.BackMdb.SearchLimit
import ReOpenLDAP.Sync.PendingCsn
import ReOpenLDAP.Sync.NotifyRight
import ReOpenLDAP.BackMdb.Paged
import ReOpenLDAP.Slapd.Approx
import ReOpenLDAP.Slapd.TimeIndex
import ReOpenLDAP.Slapd.IntegerOrder
import ReOpenLDAP.Sync.QuorumGate
import ReOpenLDAP.Sync.ConflictTable
import ReOpenLDAP.Lutil.TavlRuns
import ReOpenLDAP.Sync.CsnArrays
import ReOpenLDAP.Slapd.SortLimit
import ReOpenLDAP.Sync.GlueAncestors
import ReOpenLDAP.Slapd.SetFilterRight
import ReOpenLDAP.Sync.NewestEntry
import ReOpenLDAP.Sync.CookieNews
import ReOpenLDAP.Sync.CsnPoints
import ReOpenLDAP.Slapd.SubstrFold
import ReOpenLDAP.Sync.RefreshCookie
import ReOpenLDAP.Slapd.OrderedRuns
import ReOpenLDAP.Sync.PlaybackRight
import ReOpenLDAP.Slapd.DeliveryMethod
import ReOpenLDAP.Libreldap.Oid
import ReOpenLDAP.Libreldap.BitString
import ReOpenLDAP.Libreldap.InPlaceScan
import ReOpenLDAP.Slapd.SerialNumber
import ReOpenLDAP.Slapd.RurwlRight
import ReOpenLDAP.Slapd.SlCalloc
import ReOpenLDAP.Slapd.SlMallocRight
import ReOpenLDAP.Slapd.EntrySpace
import ReOpenLDAP.Libreldap.ReadRecordRight
import ReOpenLDAP.Slapd.AvaFilter
import ReOpenLDAP.Slapd.FilterDup
import ReOpenLDAP.Libreldap.DnRoundTrip
import ReOpenLDAP.Libreldap.AdCanonicalRight
import ReOpenLDAP.Slapd.DnStrings
import ReOpenLDAP.Libreldap.LdifRecordRight
import ReOpenLDAP.Libreldap.LdifPrintable
import ReOpenLDAP.Libreldap.Base64Inplace
import ReOpenLDAP.BackMdb.ScopeRenewal
import ReOpenLDAP.BackMdb.IdScope
import ReOpenLDAP.Slapd.EntryCode
import ReOpenLDAP.BackMdb.IdlMeet
import ReOpenLDAP.BackMdb.IdlUnion
import ReOpenLDAP.BackMdb.GlueParent
