import KnotResolver.Lib.ListLex
import KnotResolver.Dname
import KnotResolver.RRset
import KnotResolver.Zone
import KnotResolver.Contrib.Base32hex
import KnotResolver.Dnssec.Nsec
import KnotResolver.Dnssec.Nsec3
import KnotResolver.Lib.RsaSha256
import KnotResolver.Dnssec.Validation
import KnotResolver.Lib.CString
import KnotResolver.Layer.Validate
import KnotResolver.Layer.Iterate
import KnotResolver.Layer.Bailiwick
import KnotResolver.Daemon.Proxyv2
import KnotResolver.Lib.BitString
import KnotResolver.Rules.Subnet
import KnotResolver.Daemon.Stream
import KnotResolver.Lib.Kru
import KnotResolver.Daemon.Defer
import KnotResolver.Lib.SortedStore
import KnotResolver.Cache.CdbLmdb
import KnotResolver.Utils
import KnotResolver.Daemon.Network
import KnotResolver.Selection
import KnotResolver.Cache.Keys
import KnotResolver.Lib.KruAvx2
import KnotResolver.Lib.Queue
import KnotResolver.Zonecut
import KnotResolver.Rules.View
import KnotResolver.Cache.EntryH
import KnotResolver.Cache.EntryList
import KnotResolver.Cache.Peek
import KnotResolver.Lib.Lru
import KnotResolver.Daemon.DeferOrder
